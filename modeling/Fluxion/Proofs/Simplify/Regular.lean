import Fluxion.Simplify.Constants
import Fluxion.Simplify.Neutral
import Fluxion.Proofs.Expr.Reals
import Fluxion.Proofs.Expr.Values

/-!
# Values of trees

Over the reals every tree has a value at a point; that of a tree which stands for an expression is
the expression's. `Tree.Regular` is the condition under which the rules keep it, and which they keep
themselves: divisors are not zero, and a power has a positive base, also when the powers at its base
are taken away, or else whole exponents and a base that is not the constant zero.

The operands of an operator after the first can be gathered (`NaryOp.gather`); almost every rule
only rearranges what is gathered.
-/

namespace Fluxion

/-! ## The value of a tree -/

/-- The value of an operator on values, for those that have one. -/
def Operator.onValues {α : Type} [Scalar α] : Operator → List α → α
  | nary op, [] => Scalar.ofNat op.neutral
  | nary op, a :: as => as.foldl op.apply a
  | func f, [a] => f.apply a
  | _, _ => Scalar.ofNat 0

/-- The value of a tree under values for all variables. -/
def Tree.value {α : Type} [Scalar α] (ρ : String → α) : Tree α → α
  | num a => a
  | var x => ρ x
  | node op ts => op.onValues (ts.map (value ρ))

namespace Expr

variable {α : Type}

/-- The value of a tree is that of the expression it stands for. -/
@[simp] theorem value_toTree [Scalar α] (ρ : String → α) (e : Expr α) :
    e.toTree.value ρ = e.value ρ := by
  induction e using operands_induction with
  | num a => rw [toTree, Tree.value, value]
  | var x => rw [toTree, Tree.value, value]
  | nary op e es ihe ihes =>
    have hes : (es.map toTree).map (Tree.value ρ) = es.map (value ρ) := by
      rw [List.map_map]
      exact List.map_congr_left ihes
    rw [toTree, Tree.value, value, List.map_cons, ihe, hes]
    rfl
  | func f e ih =>
    rw [toTree, Tree.value, value, List.map_cons, List.map_nil, ih]
    rfl

end Expr

/-! ## Operands gathered -/

namespace NaryOp

/-- What the operands after the first come to: their sum for a sum or a difference, else their
product. -/
noncomputable def gather : NaryOp → List ℝ → ℝ
  | add, as | sub, as => as.sum
  | mul, as | div, as | pow, as => as.prod

theorem gather_nil (op : NaryOp) : op.gather [] = Simplify.neutral op := by
  cases op <;> simp [gather, Simplify.neutral, neutral]

theorem gather_singleton (op : NaryOp) (a : ℝ) : op.gather [a] = a := by
  cases op <;> simp [gather]

/-- Operands are gathered one by one, from the right as well as from the left. -/
theorem gather_cons (op : NaryOp) (a : ℝ) (as : List ℝ) :
    op.gather (a :: as) = (Simplify.gathering op).apply a (op.gather as) := by
  cases op <;> simp [gather, Simplify.gathering]

/-- Gathering is commutative and associative, and the neutral number is neutral for it. -/
theorem gathering_left_comm (op : NaryOp) (a b c : ℝ) :
    (Simplify.gathering op).apply a ((Simplify.gathering op).apply b c) =
      (Simplify.gathering op).apply b ((Simplify.gathering op).apply a c) := by
  cases op with
  | add | sub => exact add_left_comm a b c
  | mul | div | pow => exact mul_left_comm a b c

/-- Sums and products of reals can be regrouped. -/
theorem gathering_assoc (op : NaryOp) (a b c : ℝ) :
    (Simplify.gathering op).apply ((Simplify.gathering op).apply a b) c =
      (Simplify.gathering op).apply a ((Simplify.gathering op).apply b c) := by
  cases op with
  | add | sub => exact add_assoc a b c
  | mul | div | pow => exact mul_assoc a b c

theorem gathering_neutral (op : NaryOp) (a : ℝ) :
    (Simplify.gathering op).apply (Simplify.neutral op) a = a := by
  cases op <;> simp [Simplify.gathering, Simplify.neutral, neutral]

/-- What is gathered in two parts can be put together. -/
theorem gather_append (op : NaryOp) (as bs : List ℝ) :
    op.gather (as ++ bs) = (Simplify.gathering op).apply (op.gather as) (op.gather bs) := by
  induction as with
  | nil => rw [gather_nil, gathering_neutral, List.nil_append]
  | cons a as ih => rw [List.cons_append, gather_cons, ih, gather_cons, gathering_assoc]

/-- A chain of operands is the first with what the others come to, a negative base apart. -/
theorem foldl_eq_apply_gather {op : NaryOp} {a : ℝ} (h : op = .pow → 0 ≤ a) (as : List ℝ) :
    as.foldl op.apply a = op.apply a (op.gather as) := by
  cases op with
  | add => exact foldl_add a as
  | sub => exact foldl_sub a as
  | mul => exact foldl_mul a as
  | div => exact foldl_div a as
  | pow => exact foldl_pow (h rfl) as

end NaryOp

/-! ## Where simplification keeps values -/

/-- A point, and what is asked of expressions there. -/
structure Point where
  /-- The values of the variables. -/
  ρ : String → ℝ
  /-- The variables that may occur. -/
  known : String → Prop
  /-- The base of every power is positive. -/
  positive : Prop
  /-- In that case so are the variables that may occur, since powers may be made of them. -/
  pos : positive → ∀ x, known x → 0 < ρ x
  /-- What a logarithm is taken of is positive. -/
  logs : Prop := False

namespace Tree

/-- The tree below all the powers at its base. -/
def ground {α : Type} : Tree α → Tree α
  | node (.nary .pow) (t :: _) => t.ground
  | t => t

variable (p : Point)

/-- The condition on the base and the exponents of a power. -/
def AdmittedPower (t : Tree ℝ) (us : List (Tree ℝ)) : Prop :=
  0 < t.ground.value p.ρ ∨
    t ≠ .num 0 ∧ (p.positive → 0 < t.value p.ρ) ∧ ∀ u ∈ us, ∃ n : ℕ, u = .num n

/-- The condition on the operands of an operator. -/
def Admitted : NaryOp → List (Tree ℝ) → Prop
  | .add, _ | .sub, _ | .mul, _ => True
  | .div, ts => ∀ t ∈ ts.tail, t.value p.ρ ≠ 0
  | .pow, [] => True
  | .pow, t :: us => AdmittedPower p t us

/-- Trees of expressions whose value simplification keeps. -/
inductive Regular : Tree ℝ → Prop
  | num (a : ℝ) : Regular (.num a)
  | var {x : String} : p.known x → Regular (.var x)
  | nary {op : NaryOp} {ts : List (Tree ℝ)} :
      ts ≠ [] → (∀ t ∈ ts, Regular t) → Admitted p op ts → Regular (.node (.nary op) ts)
  | func {f : Func} {t : Tree ℝ} :
      Regular t → (p.logs → f = .ln → 0 < t.value p.ρ) → Regular (.node (.func f) [t])

variable {p}

@[simp] theorem value_num (ρ : String → ℝ) (a : ℝ) : (num a).value ρ = a := by rw [value]

@[simp] theorem value_var (ρ : String → ℝ) (x : String) : (var x : Tree ℝ).value ρ = ρ x := by
  rw [value]

/-- An operator is applied from left to right to the values of its operands. -/
theorem value_nary_cons (ρ : String → ℝ) (op : NaryOp) (t : Tree ℝ) (ts : List (Tree ℝ)) :
    (node (.nary op) (t :: ts)).value ρ = (ts.map (value ρ)).foldl op.apply (t.value ρ) := by
  rw [value]
  rfl

/-- The terms of a sum and the factors of a product are all alike. -/
theorem value_of_commutes (ρ : String → ℝ) {op : NaryOp} (h : op.commutes = true)
    (ts : List (Tree ℝ)) : (node (.nary op) ts).value ρ = op.gather (ts.map (value ρ)) := by
  cases ts with
  | nil => rw [value, List.map_nil, NaryOp.gather_nil]; rfl
  | cons t ts =>
    rw [value_nary_cons, List.map_cons, NaryOp.gather_cons]
    cases op with
    | add => exact NaryOp.foldl_add _ _
    | mul => exact NaryOp.foldl_mul _ _
    | sub | div | pow => cases h

/-- An operator is regular if there are operands, all of them are, and it admits them. -/
theorem Regular.nary_iff {op : NaryOp} {ts : List (Tree ℝ)} :
    Regular p (.node (.nary op) ts) ↔
      ts ≠ [] ∧ (∀ t ∈ ts, Regular p t) ∧ Admitted p op ts := by
  constructor
  · intro h
    cases h with
    | nary hne hts hadm => exact ⟨hne, hts, hadm⟩
  · rintro ⟨hne, hts, hadm⟩
    exact .nary hne hts hadm

/-- A function is regular if its operand is, and where logarithms are asked for that of a positive
value. -/
theorem Regular.func_iff {f : Func} {t : Tree ℝ} :
    Regular p (.node (.func f) [t]) ↔ Regular p t ∧ (p.logs → f = .ln → 0 < t.value p.ρ) := by
  constructor
  · intro h
    cases h with
    | func ht hlog => exact ⟨ht, hlog⟩
  · rintro ⟨ht, hlog⟩
    exact .func ht hlog

theorem ground_pow (t : Tree ℝ) (ts : List (Tree ℝ)) :
    (node (.nary .pow) (t :: ts)).ground = t.ground := by
  rw [ground]

/-- A power is positive if the base below all powers is. -/
theorem value_pos_of_ground {ρ : String → ℝ} {t : Tree ℝ} (h : 0 < t.ground.value ρ) :
    0 < t.value ρ := by
  fun_induction ground t with
  | case1 t ts ih =>
    rw [value_nary_cons]
    exact NaryOp.foldl_pow_pos (ih h) _
  | case2 t _ => exact h

/-- The value of a regular operator is that of its first operand with what the others come to. -/
theorem Regular.value_nary {op : NaryOp} {t : Tree ℝ} {ts : List (Tree ℝ)}
    (h : Regular p (.node (.nary op) (t :: ts))) :
    (node (.nary op) (t :: ts)).value p.ρ =
      op.apply (t.value p.ρ) (op.gather (ts.map (value p.ρ))) := by
  obtain ⟨-, -, hadm⟩ := nary_iff.1 h
  rw [value_nary_cons]
  cases op with
  | add | sub | mul | div => exact NaryOp.foldl_eq_apply_gather (fun h => by cases h) _
  | pow =>
    rcases hadm with hground | ⟨-, -, hwhole⟩
    · exact NaryOp.foldl_eq_apply_gather (fun _ => (value_pos_of_ground hground).le) _
    · refine NaryOp.foldl_pow_whole _ (List.forall_mem_map.2 fun u hu => ?_)
      obtain ⟨n, rfl⟩ := hwhole u hu
      exact ⟨n, value_num _ _⟩

/-- Only what the operands after the first come to matters. -/
theorem Regular.replace_others {op : NaryOp} {t : Tree ℝ} {ts us : List (Tree ℝ)}
    (h : Regular p (.node (.nary op) (t :: ts))) (hus : ∀ u ∈ us, Regular p u)
    (hgather : op.gather (us.map (value p.ρ)) = op.gather (ts.map (value p.ρ)))
    (hadm : Admitted p op (t :: us)) :
    Regular p (.node (.nary op) (t :: us)) ∧
      (node (.nary op) (t :: us)).value p.ρ = (node (.nary op) (t :: ts)).value p.ρ := by
  obtain ⟨-, hts, -⟩ := nary_iff.1 h
  have hreg : Regular p (.node (.nary op) (t :: us)) :=
    .nary (List.cons_ne_nil _ _) (List.forall_mem_cons.2 ⟨hts t (List.mem_cons_self ..), hus⟩) hadm
  exact ⟨hreg, by rw [hreg.value_nary, h.value_nary, hgather]⟩

/-- Only what all of them come to matters of the operands of a sum or a product. -/
theorem Regular.replace_all {op : NaryOp} {ts us : List (Tree ℝ)} (hop : op.commutes = true)
    (hne : us ≠ []) (hus : ∀ u ∈ us, Regular p u)
    (hgather : op.gather (us.map (value p.ρ)) = op.gather (ts.map (value p.ρ))) :
    Regular p (.node (.nary op) us) ∧
      (node (.nary op) us).value p.ρ = (node (.nary op) ts).value p.ρ := by
  refine ⟨.nary hne hus ?_, by rw [value_of_commutes _ hop, value_of_commutes _ hop, hgather]⟩
  cases op with
  | add | mul => trivial
  | sub | div | pow => cases hop

/-- All operators but powers ask no more than that divisors are not zero. -/
theorem admitted_of_ne_pow {op : NaryOp} {ts : List (Tree ℝ)} (hop : op ≠ .pow)
    (h : op = .div → ∀ t ∈ ts.tail, t.value p.ρ ≠ 0) : Admitted p op ts := by
  cases op with
  | add | sub | mul => trivial
  | div => exact h rfl
  | pow => exact absurd rfl hop

/-- Where the bases of all powers have to be positive, they are. -/
theorem Regular.base_pos {b : Tree ℝ} {es : List (Tree ℝ)}
    (h : Regular p (.node (.nary .pow) (b :: es))) (hp : p.positive) : 0 < b.value p.ρ := by
  obtain ⟨-, -, hadm⟩ := nary_iff.1 h
  rcases hadm with hground | ⟨-, hpos, -⟩
  · exact value_pos_of_ground hground
  · exact hpos hp

/-- There the base below all powers is positive, too. -/
theorem Regular.ground_pos {t : Tree ℝ} (h : Regular p t) (hp : p.positive)
    (hpos : 0 < t.value p.ρ) : 0 < t.ground.value p.ρ := by
  fun_induction ground t with
  | case1 t ts ih => exact ih ((nary_iff.1 h).2.1 t (List.mem_cons_self ..)) (h.base_pos hp)
  | case2 t _ => exact hpos

end Tree

end Fluxion

import Fluxion.Simplify.Rule
import Fluxion.Expr.Evaluation
import Fluxion.Expr.Validation

/-!
# Constants

An expression without variables is replaced by its value. Among three or more operands the constants
are gathered into one, which stands where the first of them stood: the terms of a sum are added and
the factors of a product multiplied, and so are subtrahends, divisors and exponents. A minuend or
dividend that is itself a constant takes the gathered constant in.
-/

namespace Fluxion.Simplify

variable {α : Type}

/-! ## Constants among operands -/

/-- A constant. -/
def isConstant (t : Tree α) : Bool := t.value?.isSome

/-- The number of constants among some operands. -/
def constantCount (ts : List (Tree α)) : Nat := ts.countP isConstant

/-- The operands that are no constants. -/
def withoutConstants (ts : List (Tree α)) : List (Tree α) := ts.filter fun t => !isConstant t

/-- The operands with a number in place of the first constant and without the others. -/
def placeConstant (a : α) : List (Tree α) → List (Tree α)
  | [] => []
  | t :: ts => if isConstant t then .num a :: withoutConstants ts else t :: placeConstant a ts

theorem constantCount_cons (t : Tree α) (ts : List (Tree α)) :
    constantCount (t :: ts) = constantCount ts + if isConstant t then 1 else 0 := by
  simp [constantCount, List.countP_cons]

theorem variableCount_of_isConstant {t : Tree α} (h : isConstant t) : t.variableCount = 0 := by
  cases t with
  | num a => simp
  | var x => simp [isConstant, Tree.value?] at h
  | node op ts => simp [isConstant, Tree.value?] at h

theorem weight_of_isConstant {t : Tree α} (h : isConstant t) : t.weight = 1 := by
  cases t with
  | num a => simp
  | var x => simp [isConstant, Tree.value?] at h
  | node op ts => simp [isConstant, Tree.value?] at h

/-- Constants left out take their number off the weight, and no variable. -/
theorem totals_withoutConstants (ts : List (Tree α)) :
    Tree.totalVariables (withoutConstants ts) = Tree.totalVariables ts ∧
      Tree.totalWeight (withoutConstants ts) + constantCount ts = Tree.totalWeight ts := by
  induction ts with
  | nil => exact ⟨rfl, rfl⟩
  | cons t ts ih =>
    obtain ⟨ihv, ihw⟩ := ih
    by_cases h : isConstant t
    · have hv := variableCount_of_isConstant h
      have hw := weight_of_isConstant h
      simp only [withoutConstants, constantCount] at ihv ihw ⊢
      simp only [List.filter_cons, h, Bool.not_true, Bool.false_eq_true, if_false,
        Tree.totalVariables_cons, Tree.totalWeight_cons, List.countP_cons, if_true]
      omega
    · simp only [withoutConstants, constantCount] at ihv ihw ⊢
      simp only [List.filter_cons, h, Bool.not_false, if_true, Tree.totalVariables_cons,
        Tree.totalWeight_cons, List.countP_cons, Bool.false_eq_true, if_false]
      omega

/-- With one constant in place of all, as many as there were less one are gone. -/
theorem totals_placeConstant (a : α) {ts : List (Tree α)} (h : 1 ≤ constantCount ts) :
    Tree.totalVariables (placeConstant a ts) = Tree.totalVariables ts ∧
      Tree.totalWeight (placeConstant a ts) + constantCount ts = Tree.totalWeight ts + 1 := by
  induction ts with
  | nil => simp [constantCount] at h
  | cons t ts ih =>
    by_cases ht : isConstant t
    -- here the constant is put, and the others after it are left out
    · have hv := variableCount_of_isConstant ht
      have hw := weight_of_isConstant ht
      have hts := totals_withoutConstants ts
      simp only [constantCount] at hts ⊢
      simp only [placeConstant, ht, if_true, Tree.totalVariables_cons, Tree.totalWeight_cons,
        List.countP_cons, Tree.variableCount_num, Tree.weight_num]
      omega
    · have hts : 1 ≤ constantCount ts := by
        simpa [constantCount, List.countP_cons, ht] using h
      have ih := ih hts
      simp only [constantCount] at ih ⊢
      simp only [placeConstant, ht, Bool.false_eq_true, if_false, Tree.totalVariables_cons,
        Tree.totalWeight_cons, List.countP_cons]
      omega

/-! ## The rules -/

variable [Scalar α]

/-- Replaces an expression whose value needs no variable. -/
def evaluate (t : Tree α) : Option (Tree α) :=
  match t with
  | .node op _ =>
    if op.isArithmetic then
      match t.toExpr with
      | .ok e =>
        match e.eval [] with
        | .ok a => some (.num a)
        | .error _ => none
      | .error _ => none
    else none
  | _ => none

/-- How operands after the first are gathered: `a - b - c = a - (b + c)`. -/
def gathering : NaryOp → NaryOp
  | .add | .sub => .add
  | .mul | .div | .pow => .mul

/-- The constants among some operands put together from left to right, if there are any. -/
def gathered? (op : NaryOp) (ts : List (Tree α)) : Option α :=
  match ts.filterMap Tree.value? with
  | [] => none
  | a :: as => some (as.foldl (gathering op).apply a)

/-- The operands with their constants gathered into one. -/
def gatherConstants (op : NaryOp) (ts : List (Tree α)) : List (Tree α) :=
  match gathered? op ts with
  | none => ts
  | some a => placeConstant a ts

/-- The operands of a difference or a quotient with their constants gathered. -/
def gatherRight (op : NaryOp) (first : Tree α) (others : List (Tree α)) : List (Tree α) :=
  match first.value?, gathered? op others with
  | some a, some b => .num (op.apply a b) :: withoutConstants others
  | _, _ => first :: gatherConstants op others

/-- Gathers constants where there are at least three operands and at least two constants, which for
a power have to be exponents. -/
def foldConstants : Tree α → Option (Tree α)
  | .node (.nary op) (first :: others) =>
    if 2 ≤ others.length ∧ 2 ≤ constantCount (first :: others) then
      match op with
      | .add | .mul => some (.node (.nary op) (gatherConstants op (first :: others)))
      | .sub | .div => some (.node (.nary op) (gatherRight op first others))
      | .pow =>
        if 2 ≤ constantCount others then
          some (.node (.nary op) (first :: gatherConstants op others))
        else none
    else none
  | _ => none

/-- What is evaluated is arithmetic and an expression that needs no bindings. -/
theorem evaluate_eq_some {t t' : Tree α} (h : evaluate t = some t') :
    ∃ op ts e a, t = .node op ts ∧ op.isArithmetic = true ∧ t.toExpr = .ok e ∧
      e.eval [] = .ok a ∧ t' = .num a := by
  unfold evaluate at h
  split at h
  · next op ts =>
    split at h
    · next hop =>
      split at h
      · next e he =>
        split at h
        · next a ha =>
          cases h
          exact ⟨op, ts, e, a, rfl, hop, he, ha, rfl⟩
        · cases h
      · cases h
    · cases h
  · cases h

/-- Two constants or more are gathered, among all operands or among those behind the first. -/
theorem foldConstants_eq_some {t t' : Tree α} (h : foldConstants t = some t') :
    ∃ op first others us, t = .node (.nary op) (first :: others) ∧ t' = .node (.nary op) us ∧
      2 ≤ constantCount (first :: others) ∧
      ((op = .add ∨ op = .mul) ∧ us = gatherConstants op (first :: others) ∨
        (op = .sub ∨ op = .div) ∧ us = gatherRight op first others ∨
        op = .pow ∧ 2 ≤ constantCount others ∧ us = first :: gatherConstants op others) := by
  unfold foldConstants at h
  split at h
  · next op first others =>
    rw [Option.ite_none_right_eq_some] at h
    obtain ⟨⟨-, hcount⟩, h⟩ := h
    refine ⟨op, first, others, ?_⟩
    -- commutative operators gather all operands, the others those after the first
    cases op with
    | add | mul =>
      cases h
      exact ⟨_, rfl, rfl, hcount, Or.inl ⟨by simp, rfl⟩⟩
    | sub | div =>
      cases h
      exact ⟨_, rfl, rfl, hcount, Or.inr (Or.inl ⟨by simp, rfl⟩)⟩
    | pow =>
      rw [Option.ite_none_right_eq_some, Option.some.injEq] at h
      obtain ⟨hexponents, rfl⟩ := h
      exact ⟨_, rfl, rfl, hcount, Or.inr (Or.inr ⟨rfl, hexponents, rfl⟩)⟩
  · cases h

theorem evaluate_shrinking : Shrinking (evaluate (α := α)) := by
  intro t t' h
  obtain ⟨op, ts, e, a, rfl, -, -, -, rfl⟩ := evaluate_eq_some h
  exact Tree.num_lighter _ _ _

/-- Constants among the operands can be put together if there are any. -/
theorem gathered?_isSome (op : NaryOp) {ts : List (Tree α)} (h : 1 ≤ constantCount ts) :
    ∃ a, gathered? op ts = some a := by
  have hne : ts.filterMap Tree.value? ≠ [] := by
    intro hnil
    have hcount : constantCount ts = 0 := by
      rw [constantCount, List.countP_eq_zero]
      intro t ht hc
      have := List.filterMap_eq_nil_iff.1 hnil t ht
      simp [isConstant, this] at hc
    omega
  unfold gathered?
  split
  · next hnil => exact absurd hnil hne
  · exact ⟨_, rfl⟩

/-- Gathering loses no variable, and leaves one constant of all. -/
theorem totals_gatherConstants (op : NaryOp) {ts : List (Tree α)} (h : 1 ≤ constantCount ts) :
    Tree.totalVariables (gatherConstants op ts) = Tree.totalVariables ts ∧
      Tree.totalWeight (gatherConstants op ts) + constantCount ts = Tree.totalWeight ts + 1 := by
  obtain ⟨a, ha⟩ := gathered?_isSome op h
  simp only [gatherConstants, ha]
  exact totals_placeConstant a h

/-- Gathering behind the first operand loses no variable, and makes two constants or more into
fewer. -/
theorem totals_gatherRight (op : NaryOp) (first : Tree α) {others : List (Tree α)}
    (h : 2 ≤ constantCount (first :: others)) :
    Tree.totalVariables (gatherRight op first others) = Tree.totalVariables (first :: others) ∧
      Tree.totalWeight (gatherRight op first others) < Tree.totalWeight (first :: others) := by
  rw [constantCount_cons] at h
  have hothers : 1 ≤ constantCount others := by split at h <;> omega
  obtain ⟨b, hb⟩ := gathered?_isSome op hothers
  -- a first operand that is a constant takes the gathered one in
  cases hfirst : first.value? with
  | some a =>
    have hc : isConstant first := by simp [isConstant, hfirst]
    have hv := variableCount_of_isConstant hc
    have hw := weight_of_isConstant hc
    have hts := totals_withoutConstants others
    simp only [gatherRight, hfirst, hb, Tree.totalVariables_cons, Tree.totalWeight_cons,
      Tree.variableCount_num, Tree.weight_num]
    omega
  | none =>
    have hc : isConstant first = false := by simp [isConstant, hfirst]
    simp only [hc, Bool.false_eq_true, if_false] at h
    have hts := totals_gatherConstants op hothers
    simp only [gatherRight, hfirst, Tree.totalVariables_cons, Tree.totalWeight_cons]
    omega

/-- Two constants or more are gathered into one, so the operator gets lighter. -/
theorem foldConstants_shrinking : Shrinking (foldConstants (α := α)) := by
  intro t t' h
  obtain ⟨op, first, others, us, rfl, rfl, hcount, hus⟩ := foldConstants_eq_some h
  rcases hus with ⟨-, rfl⟩ | ⟨-, rfl⟩ | ⟨-, hexponents, rfl⟩
  · have hall := totals_gatherConstants op (Nat.le_of_lt hcount)
    exact Tree.node_lighter (by omega) (by omega)
  · have hright := totals_gatherRight op first hcount
    exact Tree.node_lighter (by omega) (by omega)
  -- the base of a power stays, so two of the exponents must be constants
  · have hothers := totals_gatherConstants op (Nat.le_of_lt hexponents)
    apply Tree.node_lighter
    · simp only [Tree.totalVariables_cons]
      omega
    · simp only [Tree.totalWeight_cons]
      omega

end Fluxion.Simplify

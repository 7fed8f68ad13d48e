import Fluxion.Proofs.Simplify.LikeTerms
import Fluxion.Proofs.Simplify.Runs

/-!
# Simplification keeps values

Over the reals a simplified expression is an expression again and has the value it had, as long as
its divisors are not zero, its powers are none at all or have positive bases with positive
variables, and no constant that is tested is near zero or one without being it
(`Expr.eval_simplify`).

What one rule keeps, the first rule of several that applies keeps, and so do rules in turn and rules
done over and over; from there it is induction on the tree.
-/

namespace Fluxion

variable {p : Point}

namespace Rule

/-- The first rule that applies keeps values if all do. Those before it did not apply. -/
theorem Keeps.first {rs : List (Rule ℝ × Tests ℝ)} (h : ∀ r ∈ rs, Keeps p r.1 r.2) :
    Keeps p (Rule.first (rs.map Prod.fst)) (firstTests rs) := by
  induction rs with
  | nil => intro t w _ _ hw; cases hw
  | cons r rs ih =>
    intro t w hreg hexact hw
    obtain ⟨hr, hrs⟩ := List.forall_mem_cons.1 h
    rw [firstTests, List.forall_mem_append] at hexact
    simp only [List.map_cons, Rule.first, Option.or_eq_some_iff] at hw
    rcases hw with hw | ⟨hnone, hw⟩
    · exact hr hreg hexact.1 hw
    · rw [hnone, Option.isSome_none, if_neg Bool.false_ne_true] at hexact
      exact ih hrs hreg hexact.2 hw

/-- Rules in turn keep values if all do, each with the comparisons on what the ones before it have
left. -/
theorem Keeps.inTurn {rs : List (Rule ℝ × Tests ℝ)} (h : ∀ r ∈ rs, Keeps p r.1 r.2) :
    Keeps p (Rule.inTurn (rs.map Prod.fst)) (inTurnTests rs) := by
  induction rs with
  | nil => intro t w _ _ hw; cases hw
  | cons r rs ih =>
    intro t w hreg hexact hw
    obtain ⟨hr, hrs⟩ := List.forall_mem_cons.1 h
    rw [inTurnTests, List.forall_mem_append] at hexact
    rw [List.map_cons, Rule.inTurn] at hw
    cases hfirst : r.1 t with
    | none =>
      rw [hfirst] at hw hexact
      exact ih hrs hreg hexact.2 hw
    | some w₁ =>
      rw [hfirst] at hw hexact
      -- the later rules are done, and tested, on what this one leaves
      obtain ⟨hreg₁, hvalue₁⟩ := hr hreg hexact.1 hfirst
      simp only at hw hexact
      cases hlater : Rule.inTurn (rs.map Prod.fst) w₁.result with
      | none => rw [hlater] at hw; cases hw; exact ⟨hreg₁, hvalue₁⟩
      | some w₂ =>
        obtain ⟨hreg₂, hvalue₂⟩ := ih hrs hreg₁ hexact.2 hlater
        rw [hlater] at hw
        cases hw
        exact ⟨hreg₂, hvalue₂.trans hvalue₁⟩

/-- What a rule keeps in one round is kept over all rounds. -/
theorem Keeps.exhaust {r : Rule ℝ} {h : Shrinks r} {tests : Tests ℝ} (hr : Keeps p r tests)
    {t : Tree ℝ} (hreg : t.Regular p) (hexact : ∀ c ∈ exhaustTests r h tests t, c.Exact) :
    (Rule.exhaust r h t).result.Regular p ∧
      (Rule.exhaust r h t).result.value p.ρ = t.value p.ρ := by
  fun_induction Rule.exhaust r h t with
  | case1 t hnone => exact ⟨hreg, rfl⟩
  | case2 t w hw last ih =>
    rw [exhaustTests_of_eq_some hw, List.forall_mem_append] at hexact
    obtain ⟨hreg', hvalue⟩ := hr hreg hexact.1 hw
    obtain ⟨hlast, hvalue'⟩ := ih hreg' hexact.2
    exact ⟨hlast, hvalue'.trans hvalue⟩

end Rule

namespace Simplify

theorem shortCircuits_keeps :
    Rule.Keeps p shortCircuits (Rule.firstTests shortCircuitParts) := by
  rw [shortCircuits_eq_first]
  refine Rule.Keeps.first ?_
  simp only [shortCircuitParts, List.forall_mem_cons]
  exact ⟨Rule.Keeps.named powerZero_keeps, Rule.Keeps.named zeroPower_keeps,
    Rule.Keeps.named divideZero_keeps,
    Rule.Keeps.named fun _ hexact h => multiplyZero_keeps hexact h, List.forall_mem_nil _⟩

theorem collections_keeps : Rule.Keeps p collections (Rule.firstTests collectionParts) := by
  rw [collections_eq_first]
  refine Rule.Keeps.first ?_
  simp only [collectionParts, List.forall_mem_cons]
  exact ⟨Rule.Keeps.named combineTerms_keeps, Rule.Keeps.named subtractTerms_keeps,
    Rule.Keeps.named fun hreg _ h => combineFactors_keeps hreg h, List.forall_mem_nil _⟩

/-- The parts of a pass keep values, so the pass does. -/
theorem pass_keeps : Rule.Keeps p pass (Rule.inTurnTests passParts) := by
  rw [pass_eq_inTurn]
  refine Rule.Keeps.inTurn ?_
  simp only [passParts, List.forall_mem_cons]
  exact ⟨identities_keeps, shortCircuits_keeps, Rule.Keeps.named fun _ _ h => evaluate_keeps h,
    Rule.Keeps.named fun hreg _ h => flatten_keeps hreg h,
    Rule.Keeps.named fun hreg _ h => foldConstants_keeps hreg h, collections_keeps,
    List.forall_mem_nil _⟩

/-- At the root values are kept, by induction on the passes. -/
theorem root_keeps {t : Tree ℝ} (hreg : t.Regular p) (hexact : ∀ c ∈ rootTests t, c.Exact) :
    (root t).result.Regular p ∧ (root t).result.value p.ρ = t.value p.ρ := by
  unfold root
  split
  · next op ts =>
    split
    · next harithmetic =>
      rw [rootTests_of_isArithmetic harithmetic] at hexact
      exact pass_keeps.exhaust hreg hexact
    · exact ⟨hreg, rfl⟩
  · exact ⟨hreg, rfl⟩

end Simplify

namespace Expr

open Fluxion.Simplify

/-- The base of a power is positive, and if simplification makes a power of it, so is the base of
that. -/
structure PositiveBase (p : Point) (b : Expr ℝ) : Prop where
  pos : 0 < b.value p.ρ
  ground : b.TestsExact → ∀ c us, b.normalForm = .node (.nary .pow) (c :: us) →
    0 < c.ground.value p.ρ

/-- The exponents of a power are whole once they are simplified, and the base is not zero. -/
structure WholePower (p : Point) (b : Expr ℝ) (es : List (Expr ℝ)) : Prop where
  base : b.value p.ρ ≠ 0 ∨ ∀ a, b.normalForm ≠ .num a
  whole : ∀ d ∈ es, ∃ n : ℕ, d.normalForm = .num n
  anySign : ¬p.positive

/-- The condition on the operands of an operator. -/
def ReadyOperands (p : Point) : NaryOp → Expr ℝ → List (Expr ℝ) → Prop
  | .add, _, _ | .sub, _, _ | .mul, _, _ => True
  | .div, _, es => ∀ d ∈ es, d.value p.ρ ≠ 0
  | .pow, b, es => PositiveBase p b ∨ WholePower p b es

/-- Expressions whose value simplification keeps. -/
inductive Ready (p : Point) : Expr ℝ → Prop
  | num (a : ℝ) : Ready p (num a)
  | var {x : String} : p.known x → Ready p (var x)
  | nary {op : NaryOp} {e : Expr ℝ} {es : List (Expr ℝ)} :
      (∀ d ∈ e :: es, Ready p d) → ReadyOperands p op e es → Ready p (nary op e es)
  | func {f : Func} {e : Expr ℝ} :
      Ready p e → (p.logs → f = .ln → 0 < e.value p.ρ) → Ready p (func f e)

/-- Simplified, the base below all powers is positive. -/
theorem PositiveBase.ground_pos {b : Expr ℝ} (h : PositiveBase p b) (hexact : b.TestsExact)
    (hvalue : b.normalForm.value p.ρ = b.value p.ρ) : 0 < b.normalForm.ground.value p.ρ := by
  unfold Tree.ground
  split
  · next c us hpower => exact h.ground hexact c us hpower
  · rw [hvalue]
    exact h.pos

/-- Simplified operands are as the rules need them. -/
theorem ReadyOperands.admitted {op : NaryOp} {e : Expr ℝ} {es : List (Expr ℝ)}
    (h : ReadyOperands p op e es) (hexact : e.TestsExact)
    (hvalues : ∀ d ∈ e :: es, d.normalForm.value p.ρ = d.value p.ρ) :
    Tree.Admitted p op ((e :: es).map normalForm) := by
  obtain ⟨hvalue, hothers⟩ := List.forall_mem_cons.1 hvalues
  cases op with
  | add | sub | mul => trivial
  | div =>
    intro t ht
    obtain ⟨d, hd, rfl⟩ := List.mem_map.1 ht
    rw [hothers d hd]
    exact h d hd
  | pow =>
    -- a positive base stays positive; otherwise the exponents are whole and the base is not zero
    rcases h with hpositive | hwhole
    · exact Or.inl (hpositive.ground_pos hexact hvalue)
    · refine Or.inr ⟨fun hzero => ?_, fun hp => absurd hp hwhole.anySign,
        List.forall_mem_map.2 hwhole.whole⟩
      rcases hwhole.base with hne | hnum
      · rw [hzero, Tree.value_num] at hvalue
        exact hne hvalue.symm
      · exact hnum 0 hzero

/-- Simplification takes such an expression to a regular tree, and keeps the value. -/
theorem Ready.simplify {e : Expr ℝ} (h : e.Ready p) (hexact : e.TestsExact) :
    e.normalForm.Regular p ∧ e.normalForm.value p.ρ = e.value p.ρ := by
  induction h with
  | num a =>
    rw [normalForm_num, Tree.value_num, value]
    exact ⟨.num a, rfl⟩
  | var hx =>
    rw [normalForm_var, Tree.value_var, value]
    exact ⟨.var hx, rfl⟩
  | @nary op e es _ hoperands ih =>
    obtain ⟨hes, hroot⟩ := testsExact_nary.1 hexact
    have hvalues : ∀ d ∈ e :: es, d.normalForm.value p.ρ = d.value p.ρ :=
      fun d hd => (ih d hd (hes d hd)).2
    -- the operands first, then the rules at the root of what they leave
    have hregular : (Tree.node (.nary op) ((e :: es).map normalForm)).Regular p :=
      .nary (List.cons_ne_nil _ _) (List.forall_mem_map.2 fun d hd => (ih d hd (hes d hd)).1)
        (hoperands.admitted (hes e (List.mem_cons_self ..)) hvalues)
    obtain ⟨hsimple, hvalue⟩ := root_keeps hregular hroot
    rw [normalForm_nary]
    refine ⟨hsimple, hvalue.trans ?_⟩
    rw [← value_toTree, toTree, ← List.map_cons, Tree.value, Tree.value, List.map_map, List.map_map]
    exact congrArg _ (List.map_congr_left fun d hd => (hvalues d hd).trans (value_toTree _ d).symm)
  | @func f e _ hlog ih =>
    obtain ⟨he, hroot⟩ := testsExact_func.1 hexact
    obtain ⟨hargument, hsame⟩ := ih he
    have hregular : (Tree.node (.func f) [e.normalForm]).Regular p :=
      .func hargument fun hp hf => by rw [hsame]; exact hlog hp hf
    obtain ⟨hsimple, hvalue⟩ := root_keeps hregular hroot
    rw [normalForm_func]
    refine ⟨hsimple, hvalue.trans ?_⟩
    rw [Tree.value, List.map_singleton, hsame, value]
    rfl

/-- A regular tree stands for an expression, of variables that may occur. -/
theorem exists_of_regular {t : Tree ℝ} (h : t.Regular p) :
    ∃ e : Expr ℝ, e.toTree = t ∧ e.NamesIn p.known := by
  induction h with
  | num a => exact ⟨num a, by rw [toTree], namesIn_num a⟩
  | @var x hx => exact ⟨var x, by rw [toTree], namesIn_var.2 hx⟩
  | @nary op ts hne _ _ ih =>
    obtain ⟨es, rfl, hes⟩ := exists_map_toTree ih
    have hes' : es ≠ [] := by
      rintro rfl
      exact hne rfl
    obtain ⟨e, ds, rfl⟩ := List.exists_cons_of_ne_nil hes'
    exact ⟨nary op e ds, by rw [toTree]; rfl, namesIn_nary.2 (List.forall_mem_cons.1 hes)⟩
  | func _ _ ih =>
    obtain ⟨e, rfl, he⟩ := ih
    exact ⟨func _ e, by rw [toTree], namesIn_func.2 he⟩

/-- Where the bases of all powers have to be positive, those that simplification makes are. -/
theorem Ready.positiveBase {b : Expr ℝ} (h : b.Ready p) (hp : p.positive)
    (hpos : 0 < b.value p.ρ) : PositiveBase p b where
  pos := hpos
  ground hexact c us hpower := by
    obtain ⟨hregular, -⟩ := h.simplify hexact
    rw [hpower] at hregular
    have hbase : c.Regular p := (Tree.Regular.nary_iff.1 hregular).2.1 c (List.mem_cons_self ..)
    exact hbase.ground_pos hp (hregular.base_pos hp)

/-- An expression is ready if its parts are as they should be. -/
theorem ready_of_parts {e : Expr ℝ} (hnames : e.NamesIn p.known)
    (hdivisors : ∀ a ds, nary .div a ds ∈ e.parts → ∀ d ∈ ds, d.value p.ρ ≠ 0)
    (hlogs : p.logs → ∀ a, func .ln a ∈ e.parts → 0 < a.value p.ρ)
    (hpowers : ∀ b es, nary .pow b es ∈ e.parts → (∀ d ∈ b :: es, d.Ready p) →
      ReadyOperands p .pow b es) : e.Ready p := by
  induction e using operands_induction with
  | num a => exact .num a
  | var x => exact .var (namesIn_var.1 hnames)
  | nary op e es ihe ihes =>
    obtain ⟨hname, hothers⟩ := namesIn_nary.1 hnames
    have hfirst : e.Ready p :=
      ihe hname (fun a ds h => hdivisors a ds (mem_parts_first op es h))
        (fun hp a h => hlogs hp a (mem_parts_first op es h))
        fun b es' h => hpowers b es' (mem_parts_first op es h)
    have hoperands : ∀ d ∈ e :: es, d.Ready p := List.forall_mem_cons.2 ⟨hfirst, fun d hd =>
      ihes d hd (hothers d hd) (fun a ds h => hdivisors a ds (mem_parts_other op e hd h))
        (fun hp a h => hlogs hp a (mem_parts_other op e hd h))
        fun b es' h => hpowers b es' (mem_parts_other op e hd h)⟩
    -- what is asked of the operator is what the hypotheses say of the expression as its own part
    have hself := mem_parts_self (nary op e es)
    refine .nary hoperands ?_
    cases op with
    | add | sub | mul => trivial
    | div => exact hdivisors e es hself
    | pow => exact hpowers e es hself hoperands
  | func f e ih =>
    refine .func (ih (namesIn_func.1 hnames)
      (fun a ds h => hdivisors a ds (mem_parts_argument f h))
      (fun hp a h => hlogs hp a (mem_parts_argument f h))
      fun b es h => hpowers b es (mem_parts_argument f h)) ?_
    rintro hp rfl
    exact hlogs hp e (mem_parts_self _)

/-- The simplified expression is an expression again and evaluates to the same, at every point where
no divisor is zero and where either there are no powers or all variables and all bases of powers are
positive, if no test of a constant is inexact. -/
theorem eval_simplify {e : Expr ℝ} {bindings : Bindings ℝ} (hcovers : bindings.Covers e)
    (hdivisors : ∀ a ds, nary .div a ds ∈ e.parts → ∀ d ∈ ds, d.value bindings.assign ≠ 0)
    (hpowers : (∀ b es, nary .pow b es ∉ e.parts) ∨
      (∀ x ∈ e.leafNames, 0 < bindings.assign x) ∧
        ∀ b es, nary .pow b es ∈ e.parts → 0 < b.value bindings.assign)
    (hexact : ∀ c ∈ e.toTree.simplifyTests, c.Exact) :
    ∃ (e' : Expr ℝ) (a : ℝ), e.toTree.simplify.toExpr = .ok e' ∧
      e'.eval bindings = .ok a ∧ e.eval bindings = .ok a := by
  -- only the variables of the expression have to be positive, so these are all that may occur
  let q : Point :=
    { ρ := bindings.assign
      known := fun x => x ∈ e.leafNames
      positive := ∀ x ∈ e.leafNames, 0 < bindings.assign x
      pos := fun h => h }
  have hready : e.Ready q := by
    refine ready_of_parts (fun _ hx => hx) hdivisors (fun h => h.elim) fun b es hmem hready => ?_
    rcases hpowers with hnone | ⟨hpositive, hbases⟩
    · exact absurd hmem (hnone b es)
    · have hb : b.Ready q := hready b (List.mem_cons_self ..)
      exact Or.inl (hb.positiveBase hpositive (hbases b es hmem))
  obtain ⟨hsimplified, hvalue⟩ := hready.simplify hexact
  obtain ⟨e', htree, hnames⟩ := exists_of_regular hsimplified
  have hcovers' : bindings.Covers e' := fun x hx => hcovers x (hnames x hx)
  refine ⟨e', e'.value bindings.assign, ?_, eval_eq_ok hcovers', ?_⟩
  · show e.normalForm.toExpr = .ok e'
    rw [← htree]
    exact toExpr_toTree e'
  · rw [← htree, value_toTree] at hvalue
    exact (eval_eq_ok hcovers).trans (congrArg Except.ok hvalue.symm)

/-- `x * x / y` at `x = -2` and `y = 3`: no power to begin with, so that `x` may be negative. -/
theorem eval_simplify_square_div :
    Bindings.Covers [("x", -2), ("y", 3)]
        (nary .div (nary .mul (var "x") [var "x"]) [var "y"] : Expr ℝ) ∧
      (∀ a ds, nary .div a ds ∈
          (nary .div (nary .mul (var "x") [var "x"]) [var "y"] : Expr ℝ).parts →
        ∀ d ∈ ds, d.value (Bindings.assign [("x", -2), ("y", 3)]) ≠ 0) ∧
      (∀ b es, nary .pow b es ∉
        (nary .div (nary .mul (var "x") [var "x"]) [var "y"] : Expr ℝ).parts) ∧
      (∀ c ∈ (nary .div (nary .mul (var "x") [var "x"]) [var "y"] : Expr ℝ).toTree.simplifyTests,
        c.Exact) ∧
      ∃ (e' : Expr ℝ) (a : ℝ),
        (nary .div (nary .mul (var "x") [var "x"]) [var "y"] : Expr ℝ).toTree.simplify.toExpr =
          .ok e' ∧
        e'.eval [("x", -2), ("y", 3)] = .ok a ∧
        (nary .div (nary .mul (var "x") [var "x"]) [var "y"] : Expr ℝ).eval
          [("x", -2), ("y", 3)] = .ok a := by
  have hcovers : Bindings.Covers [("x", -2), ("y", 3)]
      (nary .div (nary .mul (var "x") [var "x"]) [var "y"] : Expr ℝ) := by
    simp [Bindings.Covers]
  have hdivisors : ∀ a ds, nary .div a ds ∈
      (nary .div (nary .mul (var "x") [var "x"]) [var "y"] : Expr ℝ).parts →
        ∀ d ∈ ds, d.value (Bindings.assign [("x", -2), ("y", 3)]) ≠ 0 := by
    intro a ds hmem d hd
    simp [parts] at hmem
    obtain ⟨rfl, rfl⟩ := hmem
    obtain rfl := List.mem_singleton.1 hd
    have hy : Bindings.assign [("x", (-2 : ℝ)), ("y", 3)] "y" = 3 := rfl
    rw [value, hy]
    norm_num
  have hpowers : ∀ b es, nary .pow b es ∉
      (nary .div (nary .mul (var "x") [var "x"]) [var "y"] : Expr ℝ).parts := by
    intro b es
    simp [parts]
  -- the square is collected first, and the quotient has nothing to simplify
  have hexact : ∀ c ∈ (nary .div (nary .mul (var "x") [var "x"]) [var "y"] :
      Expr ℝ).toTree.simplifyTests, c.Exact := by
    have hsquare : (nary .mul (var "x") [var "x"] : Expr ℝ).NormalizesTo
        (.node (.nary .pow) [.var "x", .num (Scalar.ofNat 2)]) :=
      normalizesTo_nary (.cons (normalizesTo_var _) (.cons (normalizesTo_var _) .nil))
        reduces_square
    refine (normalizesTo_nary (.cons hsquare (.cons (normalizesTo_var "y") .nil)) (.last ?_)).2
    refine turns_of_ordinary (by simp [ordinary_var, ordinary_node]) (by simp) ?_
    exact turns_of_factors (x := "x") (by simp) (by simp [Tree.leafNames])
      (Rule.left_of_eq_none rfl) (Rule.left_of_eq_none rfl) (Rule.left_of_eq_none rfl)
  exact ⟨hcovers, hdivisors, hpowers, hexact,
    eval_simplify hcovers hdivisors (Or.inl hpowers) hexact⟩

end Expr

end Fluxion

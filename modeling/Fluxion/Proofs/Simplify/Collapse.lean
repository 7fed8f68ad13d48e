import Fluxion.Proofs.Simplify.Regular
import Fluxion.Proofs.Simplify.Settled

/-!
# Constants collapse

An operator on numbers becomes a number (`Simplify.root_map_num`), whatever the numbers are. That
number comes of evaluation with a tolerance: the operands near the neutral number are left out
first, one that is left alone is the result, a zero among the others may decide, and only then is
anything computed.

The comparisons on the way are those of the rules that leave out and decide
(`Simplify.rootTests_map_num`). Where a comparison takes no number for another (`Test.Sound`), what
is left out is neutral (`Simplify.sound_neutral`) and what decides is zero
(`Simplify.decisive_of_rootTests`).
-/

namespace Fluxion

variable {α : Type} [Scalar α]

namespace Simplify

/-! ## An operator on constants -/

/-- The number is not near the neutral number. -/
def counts (op : NaryOp) (b : α) : Bool := !Scalar.near b (neutral op)

/-- The operands that are left: where the neutral number is neutral on the right only, the first
stays. -/
def kept (op : NaryOp) (bs : List α) : List α :=
  if op.commutes then bs.filter (counts op)
  else match bs with
    | [] => []
    | b :: bs => b :: bs.filter (counts op)

/-- What a zero among the operands makes of them, if there is one where it matters. -/
def decided? : NaryOp → List α → Option α
  | .mul, cs => if cs.any Scalar.isZero then some (Scalar.ofNat 0) else none
  | .div, c :: _ => if Scalar.isZero c then some (Scalar.ofNat 0) else none
  | .pow, c :: cs =>
    if cs.any Scalar.isZero then some (Scalar.ofNat 1)
    else if Scalar.isZero c then some (Scalar.ofNat 0) else none
  | _, _ => none

/-- What an operator on numbers becomes. -/
def collapse (op : NaryOp) (bs : List α) : α :=
  match kept op bs with
  | [] => neutral op
  | [c] => c
  | cs => (decided? op cs).getD ((Operator.nary op).onValues cs)

theorem filter_map_num (op : NaryOp) (bs : List α) :
    withoutNeutral op (bs.map .num) = (bs.filter (counts op)).map .num := by
  rw [withoutNeutral, List.filter_map]
  rfl

/-- Of operands that are numbers those are kept that count. -/
theorem keptOperands_map_num (op : NaryOp) (bs : List α) :
    keptOperands op (bs.map .num) = (kept op bs).map .num := by
  unfold keptOperands kept
  split
  · exact filter_map_num op bs
  · cases bs with
    | nil => rfl
    | cons b bs => exact congrArg (.num b :: ·) (filter_map_num op bs)

theorem any_isZero_map_num (cs : List α) : (cs.map Tree.num).any isZero = cs.any Scalar.isZero := by
  rw [List.any_map]
  rfl

/-- A zero that decides is found by one of the rules, and no other rule does anything. -/
theorem shortCircuits_map_num (op : NaryOp) (cs : List α) :
    shortCircuits.left (.node (.nary op) (cs.map .num)) =
      match decided? op cs with
      | none => .node (.nary op) (cs.map .num)
      | some a => .num a := by
  cases op with
  | add | sub => rfl
  | mul =>
    have hrule : multiplyZero (.node (.nary .mul) (cs.map .num)) =
        if cs.any Scalar.isZero then some (.num (Scalar.ofNat 0)) else none := by
      rw [multiplyZero, any_isZero_map_num]
    simp only [shortCircuits, Rule.left, Rule.first, Rule.named, hrule, decided?]
    cases cs.any Scalar.isZero <;> rfl
  | div =>
    cases cs with
    | nil => rfl
    | cons c cs =>
      have hrule : divideZero (.node (.nary .div) ((c :: cs).map .num)) =
          if Scalar.isZero c then some (.num (Scalar.ofNat 0)) else none := rfl
      simp only [shortCircuits, Rule.left, Rule.first, Rule.named, hrule, decided?]
      cases Scalar.isZero c <;> rfl
  | pow =>
    cases cs with
    | nil => rfl
    | cons c cs =>
      have hexponents : powerZero (.node (.nary .pow) ((c :: cs).map .num)) =
          if cs.any Scalar.isZero then some (.num (Scalar.ofNat 1)) else none := by
        rw [List.map_cons, powerZero, any_isZero_map_num]
      have hbase : zeroPower (.node (.nary .pow) ((c :: cs).map .num)) =
          if Scalar.isZero c then some (.num (Scalar.ofNat 0)) else none := rfl
      simp only [shortCircuits, Rule.left, Rule.first, Rule.named, hexponents, hbase, decided?]
      cases cs.any Scalar.isZero <;> cases Scalar.isZero c <;> rfl

/-- What has no variable is evaluated, unless it is a number already. -/
theorem evaluate_toTree {e : Expr α} {op : Operator} {ts : List (Tree α)}
    (htree : e.toTree = .node op ts) (hop : op.isArithmetic = true) (hnames : e.leafNames = []) :
    evaluate (.node op ts) = some (.num (e.value (Bindings.assign []))) := by
  have hcovers : Bindings.Covers [] e := fun x hx => by rw [hnames] at hx; cases hx
  have hread : (Tree.node op ts).toExpr = .ok e := by rw [← htree, Expr.toExpr_toTree]
  rw [evaluate, if_pos hop, hread]
  simp only [Expr.eval_eq_ok hcovers]

/-- An operator on numbers is evaluated to its value. -/
theorem evaluate_map_num (op : NaryOp) (c : α) (cs : List α) :
    evaluate (.node (.nary op) ((c :: cs).map .num)) =
      some (.num ((Operator.nary op).onValues (c :: cs))) := by
  have htree : (Expr.nary op (.num c) (cs.map .num)).toTree =
      .node (.nary op) ((c :: cs).map .num) := by
    rw [Expr.toTree, Expr.toTree, List.map_map, List.map_cons]
    congr 2
    exact List.map_congr_left fun b _ => by rw [Function.comp, Expr.toTree]
  have hvalue : (Expr.nary op (.num c) (cs.map .num)).value (Bindings.assign []) =
      (Operator.nary op).onValues (c :: cs) := by
    rw [← Expr.value_toTree, htree, Tree.value, List.map_map]
    refine congrArg _ ((List.map_congr_left fun b _ => ?_).trans (List.map_id _))
    rw [Function.comp, Tree.value]
    rfl
  rw [evaluate_toTree htree rfl (by simp [Expr.leafNames, Function.comp_def]), hvalue]

/-- No rule does anything with a number or compares it. -/
theorem inTurn_num {rs : List (Rule α × Tests α)} (hrs : ∀ r ∈ rs, r ∈ passParts) (a : α) :
    (Rule.inTurn (rs.map Prod.fst)).left (.num a) = .num a ∧
      Rule.inTurnTests rs (.num a) = [] := by
  refine ⟨(turns_leaf (fun _ _ h => by cases h) hrs).left, ?_⟩
  induction rs with
  | nil => rfl
  | cons r rs ih =>
    obtain ⟨hr, hrs⟩ := List.forall_mem_cons.1 hrs
    have hpart : r.1 (.num a) = none ∧ r.2 (.num a) = [] := by
      simp only [passParts, List.mem_cons, List.not_mem_nil, or_false] at hr
      rcases hr with rfl | rfl | rfl | rfl | rfl | rfl <;> exact ⟨rfl, rfl⟩
    rw [Rule.inTurnTests, hpart.1, hpart.2, List.nil_append]
    exact ih hrs

/-- After the first three groups of rules there is a number. -/
theorem evaluated_map_num (op : NaryOp) (bs : List α) :
    (Rule.named .evaluate evaluate).left
        (shortCircuits.left (identities.left (.node (.nary op) (bs.map .num)))) =
      .num (collapse op bs) := by
  rw [identities_left, keptOperands_map_num, collapse]
  match kept op bs with
  | [] => rfl
  | [c] => rfl
  | c :: d :: cs =>
    show Rule.left _ (shortCircuits.left (.node (.nary op) ((c :: d :: cs).map .num))) = _
    rw [shortCircuits_map_num]
    dsimp only
    cases decided? op (c :: d :: cs) with
    | some a => rfl
    | none => exact Rule.left_named (evaluate_map_num op c (d :: cs))

/-- One pass is enough to make a number of an operator on numbers. -/
theorem pass_left_map_num (op : NaryOp) (bs : List α) :
    pass.left (.node (.nary op) (bs.map .num)) = .num (collapse op bs) := by
  rw [pass, Rule.left_inTurn_cons, Rule.left_inTurn_cons, Rule.left_inTurn_cons,
    evaluated_map_num]
  exact (inTurn_num (fun r hr => List.mem_of_mem_drop (i := 3) hr) _).1

/-- An operator on numbers becomes a number. -/
theorem root_map_num (op : NaryOp) (bs : List α) :
    (root (.node (.nary op) (bs.map .num))).result = .num (collapse op bs) :=
  root_of_pass_left rfl (pass_left_map_num op bs) (settled_num _)

/-- A function of a number becomes its value. -/
theorem root_func_num (f : Func) (a : α) :
    (root (.node (.func f) [.num a])).result = .num (f.apply a) := by
  refine root_of_pass_left rfl ?_ (settled_num _)
  have htree : (Expr.func f (.num a)).toTree = .node (.func f) [.num a] := by
    rw [Expr.toTree, Expr.toTree]
  have hvalue := evaluate_toTree htree rfl (by simp [Expr.leafNames])
  rw [Expr.value, Expr.value] at hvalue
  have hidentities : identities (Tree.node (.func f) [.num a]) = none := rfl
  have hshort : shortCircuits (Tree.node (.func f) [.num a]) = none := rfl
  rw [pass, Rule.left_inTurn_cons, Rule.left_of_eq_none hidentities, Rule.left_inTurn_cons,
    Rule.left_of_eq_none hshort, Rule.left_inTurn_cons, Rule.left_named hvalue]
  exact (inTurn_num (fun r hr => List.mem_of_mem_drop (i := 3) hr) _).1

end Simplify

/-! ## What is compared -/

/-- The constant is the number up to the sign of zero, or is not near it. -/
def Test.Sound (c : Test α) : Prop :=
  Scalar.near c.constant c.number = true → Scalar.same c.constant c.number = true

theorem Test.Exact.sound [LawfulScalar α] {c : Test α} (h : c.Exact) : c.Sound := by
  intro hnear
  rw [h hnear]
  exact LawfulScalar.same_refl _

instance [DecidableEq α] (c : Test α) : Decidable c.Exact := inferInstanceAs (Decidable (_ → _))

namespace Simplify

/-- A zero among the operands makes them `a`, and is one up to the sign. -/
def Decisive : NaryOp → List α → α → Prop
  | .mul, cs, a => a = Scalar.ofNat 0 ∧ ∃ z ∈ cs, Scalar.same z (Scalar.ofNat 0) = true
  | .div, c :: _, a => a = Scalar.ofNat 0 ∧ Scalar.same c (Scalar.ofNat 0) = true
  | .pow, c :: cs, a =>
    (a = Scalar.ofNat 1 ∧ ∃ z ∈ cs, Scalar.same z (Scalar.ofNat 0) = true) ∨
      (a = Scalar.ofNat 0 ∧ Scalar.same c (Scalar.ofNat 0) = true ∧
        ∀ d ∈ cs, Scalar.isZero d = false)
  | _, _, _ => False

/-- Numbers are compared by the first two groups of rules, in the first pass. -/
theorem rootTests_map_num (op : NaryOp) (bs : List α) :
    rootTests (.node (.nary op) (bs.map .num)) =
      removeNeutralTests (.node (.nary op) (bs.map .num)) ++
        Rule.firstTests shortCircuitParts (identities.left (.node (.nary op) (bs.map .num))) := by
  have hnum : ∀ {rs : List (Rule α × Tests α)}, (∀ r ∈ rs, r ∈ passParts) →
      Rule.inTurnTests rs (.num (collapse op bs)) = [] := fun hrs => (inTurn_num hrs _).2
  have hturn : Rule.inTurnTests passParts (.node (.nary op) (bs.map .num)) =
      removeNeutralTests (.node (.nary op) (bs.map .num)) ++
        (Rule.firstTests shortCircuitParts (identities.left (.node (.nary op) (bs.map .num))) ++
          Rule.inTurnTests (passParts.drop 3) ((Rule.named .evaluate evaluate).left
            (shortCircuits.left (identities.left (.node (.nary op) (bs.map .num)))))) := rfl
  rw [evaluated_map_num, hnum fun r hr => List.mem_of_mem_drop hr, List.append_nil] at hturn
  have hpass := pass_left_map_num op bs
  rw [rootTests_of_isArithmetic rfl]
  cases hw : pass (.node (.nary op) (bs.map .num)) with
  | none => rw [Rule.exhaustTests_of_eq_none hw, hturn]
  | some w =>
    rw [Rule.left_of_eq_some hw] at hpass
    rw [Rule.exhaustTests_of_eq_some hw, hpass, Rule.exhaustTests_of_eq_none (settled_num _),
      hnum fun _ hr => hr, List.append_nil, hturn]

variable {op : NaryOp} {bs : List α}

/-- Every operand that could be left out is compared with the neutral number. -/
theorem sound_neutral (h : ∀ c ∈ rootTests (.node (.nary op) (bs.map .num)), c.Sound) :
    ∀ b ∈ if op.commutes then bs else bs.tail, (⟨b, neutral op⟩ : Test α).Sound := by
  intro b hb
  rw [rootTests_map_num] at h
  refine h _ (List.mem_append_left _ ?_)
  refine List.mem_flatMap.2 ⟨.num b, ?_, List.mem_singleton_self _⟩
  split at hb
  · next hop =>
    rw [if_pos hop]
    exact List.mem_map_of_mem hb
  · next hop =>
    rw [if_neg hop, ← List.map_tail]
    exact List.mem_map_of_mem hb

/-- If the comparisons are sound, a number that is taken for zero is zero. -/
theorem exists_of_anyZeroTests {cs : List α} (h : ∀ c ∈ anyZeroTests (cs.map .num), c.Sound)
    (hany : cs.any Scalar.isZero = true) : ∃ z ∈ cs, Scalar.same z (Scalar.ofNat 0) = true := by
  induction cs with
  | nil => cases hany
  | cons c cs ih =>
    rw [List.map_cons, anyZeroTests] at h
    obtain ⟨hc, hcs⟩ := List.forall_mem_append.1 h
    cases hzero : Scalar.isZero c with
    | true => exact ⟨c, List.mem_cons_self .., hc _ (List.mem_singleton_self _) hzero⟩
    | false =>
      have hnext : isZero (.num c) = false := hzero
      rw [hnext, if_neg Bool.false_ne_true] at hcs
      rw [List.any_cons, hzero, Bool.false_or] at hany
      obtain ⟨z, hz, hsame⟩ := ih hcs hany
      exact ⟨z, List.mem_cons_of_mem _ hz, hsame⟩

/-- If the comparisons are sound, what decides is zero, for each of the operators. -/
theorem decisive_of_firstTests {cs : List α} {a : α}
    (h : ∀ c ∈ Rule.firstTests shortCircuitParts (.node (.nary op) (cs.map .num)), c.Sound)
    (hdecided : decided? op cs = some a) : Decisive op cs a := by
  cases op with
  | add | sub => cases hdecided
  | mul =>
    rw [decided?, Option.ite_none_right_eq_some, Option.some.injEq] at hdecided
    have htests : ∀ c ∈ anyZeroTests (cs.map .num), c.Sound := fun c hc =>
      h c (show c ∈ anyZeroTests (cs.map .num) ++ _ from List.mem_append_left _ hc)
    exact ⟨hdecided.2.symm, exists_of_anyZeroTests htests hdecided.1⟩
  | div =>
    cases cs with
    | nil => cases hdecided
    | cons c cs =>
      rw [decided?, Option.ite_none_right_eq_some, Option.some.injEq] at hdecided
      exact ⟨hdecided.2.symm, h ⟨c, Scalar.ofNat 0⟩ (List.mem_cons_self ..) hdecided.1⟩
  | pow =>
    cases cs with
    | nil => cases hdecided
    | cons c cs =>
      obtain ⟨hexponents, hlater⟩ := List.forall_mem_append.1 h
      rw [decided?] at hdecided
      -- an exponent that is near zero decides before the base is looked at
      split at hdecided
      · next hany =>
        exact .inl ⟨(Option.some.inj hdecided).symm, exists_of_anyZeroTests hexponents hany⟩
      · next hany =>
        have hnone : powerZero (.node (.nary .pow) ((c :: cs).map .num)) = none := by
          rw [List.map_cons, powerZero, any_isZero_map_num, if_neg hany]
        rw [Rule.named, hnone, Option.map_none, Option.isSome_none,
          if_neg Bool.false_ne_true] at hlater
        rw [Option.ite_none_right_eq_some, Option.some.injEq] at hdecided
        refine .inr ⟨hdecided.2.symm, ?_, ?_⟩
        · exact hlater ⟨c, Scalar.ofNat 0⟩ (List.mem_cons_self ..) hdecided.1
        · exact fun d hd => Bool.eq_false_iff.2 fun hzero =>
            hany (List.any_eq_true.2 ⟨d, hd, hzero⟩)

/-- Where two operands or more are left, a zero that decides is one up to the sign. -/
theorem decisive_of_rootTests (h : ∀ c ∈ rootTests (.node (.nary op) (bs.map .num)), c.Sound)
    {b c : α} {cs : List α} (hkept : kept op bs = b :: c :: cs) {a : α}
    (hdecided : decided? op (b :: c :: cs) = some a) : Decisive op (b :: c :: cs) a := by
  rw [rootTests_map_num, identities_left, keptOperands_map_num, hkept] at h
  exact decisive_of_firstTests (List.forall_mem_append.1 h).2 hdecided

end Simplify

/-- Operands that become numbers, and an operator that compares these exactly. -/
theorem Expr.normalizesTo_collapse (op : NaryOp) {e : Expr α} {es : List (Expr α)} {bs : List α}
    (hes : List.Forall₂ (fun d b => d.NormalizesTo (.num b)) (e :: es) bs)
    (h : ∀ c ∈ Simplify.removeNeutralTests (.node (.nary op) (bs.map .num)) ++
      Rule.firstTests Simplify.shortCircuitParts
        (Simplify.identities.left (.node (.nary op) (bs.map .num))), c.Exact) :
    (nary op e es).NormalizesTo (.num (Simplify.collapse op bs)) := by
  refine normalizesTo_nary (List.forall₂_map_right_iff.2 hes) ⟨?_, ?_⟩
  · rw [← Simplify.root_of_isArithmetic rfl, Simplify.root_map_num]
  · rwa [← Simplify.rootTests_of_isArithmetic rfl, Simplify.rootTests_map_num]

end Fluxion

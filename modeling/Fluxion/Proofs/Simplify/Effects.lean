import Fluxion.Proofs.Simplify.Zeros
import Fluxion.Proofs.Tree.Formed

/-!
# Effects of programs

What a program does besides computing: its assignments and its calls, those of the operands of a
node from left to right and before that of the node. No rule duplicates or reorders them, and only
the short circuits drop any, which leave a constant of the whole operator (`Simplify.effects_root`).
So after simplification the effects are what they were, without those inside of arithmetic that has
become a constant (`Entry.effects_simplify`).
-/

namespace Fluxion

variable {α : Type}

/-- An assignment to a variable, with the variable's name, or a call of a function. -/
inductive Effect where
  | assign (target : Option String)
  | call (name : String)
  deriving DecidableEq

/-- The effect of an operator itself. -/
def Operator.effects (op : Operator) (ts : List (Tree α)) : List Effect :=
  match op with
  | assign => [.assign (ts.head?.bind Tree.name?)]
  | call name => [.call name]
  | _ => []

namespace Tree

/-- The effects in a tree from left to right, operands before their operator. -/
def effects : Tree α → List Effect
  | num _ => []
  | var _ => []
  | node op ts => (ts.map effects).flatten ++ op.effects ts

theorem effects_num (a : α) : (num a).effects = [] := by rw [effects]

theorem effects_var (x : String) : (var x : Tree α).effects = [] := by rw [effects]

/-- The effects of the operands come before that of the node. -/
theorem effects_node (op : Operator) (ts : List (Tree α)) :
    (node op ts).effects = ts.flatMap effects ++ op.effects ts := by
  rw [effects, ← List.flatMap_def]

/-- Arithmetic has no effect of its own. -/
theorem effects_nary (op : NaryOp) (ts : List (Tree α)) :
    (node (.nary op) ts).effects = ts.flatMap effects := by
  rw [effects_node]
  exact List.append_nil _

/-- Trees without effects can be left out. -/
theorem flatMap_effects_filter {p : Tree α → Bool} {ts : List (Tree α)}
    (h : ∀ t ∈ ts, p t = false → t.effects = []) :
    (ts.filter p).flatMap effects = ts.flatMap effects := by
  induction ts with
  | nil => rfl
  | cons t ts ih =>
    obtain ⟨ht, hts⟩ := List.forall_mem_cons.1 h
    rw [List.flatMap_cons, ← ih hts]
    cases hp : p t with
    | true => rw [List.filter_cons_of_pos hp, List.flatMap_cons]
    | false => rw [List.filter_cons_of_neg (by simp [hp]), ht hp, List.nil_append]

/-- An expression has no effects. -/
theorem effects_toTree (e : Expr α) : e.toTree.effects = [] := by
  induction e using Expr.operands_induction with
  | num a => rw [Expr.toTree, effects_num]
  | var x => rw [Expr.toTree, effects_var]
  | nary op e es ihe ihes =>
    rw [Expr.toTree, effects_nary, List.flatMap_cons, ihe, List.nil_append, List.flatMap_eq_nil_iff]
    intro t ht
    obtain ⟨d, hd, rfl⟩ := List.mem_map.1 ht
    exact ihes d hd
  | func f e ih =>
    rw [Expr.toTree, effects_node, List.flatMap_singleton, ih]
    rfl

end Tree

/-! ## What the rules leave of effects -/

namespace Simplify

open Fluxion.Tree

theorem effects_of_isConstant {t : Tree α} (h : isConstant t = true) : t.effects = [] := by
  cases t with
  | num a => exact effects_num a
  | var x => cases h
  | node op ts => cases h

theorem effects_of_isVariable {t : Tree α} {x : String} (h : isVariable x t = true) :
    t.effects = [] := by
  rw [eq_var_of_isVariable h, effects_var]

/-- The operands of an inlined node have its effects, in the same order. -/
theorem effects_spread (inner : Option NaryOp) (t : Tree α) :
    (spread inner t).flatMap effects = t.effects := by
  unfold spread
  split
  · next h =>
    obtain ⟨op, ts, -, rfl⟩ := isInlined_eq_true h
    exact (effects_nary op ts).symm
  · exact List.flatMap_singleton ..

theorem effects_flatMap_spread (inner : Option NaryOp) (ts : List (Tree α)) :
    (ts.flatMap (spread inner)).flatMap effects = ts.flatMap effects := by
  rw [List.flatMap_assoc]
  exact List.flatMap_congr fun t _ => effects_spread inner t

/-- To leave out constants loses no effect. -/
theorem effects_withoutConstants (ts : List (Tree α)) :
    (withoutConstants ts).flatMap effects = ts.flatMap effects :=
  flatMap_effects_filter fun _ _ h => effects_of_isConstant (by simpa using h)

/-- To put in a constant adds no effect, wherever it stands. -/
theorem effects_placeConstant (a : α) (ts : List (Tree α)) :
    (placeConstant a ts).flatMap effects = ts.flatMap effects := by
  induction ts with
  | nil => rfl
  | cons t ts ih =>
    unfold placeConstant
    split
    · next h =>
      rw [List.flatMap_cons, List.flatMap_cons, effects_num, effects_of_isConstant h,
        effects_withoutConstants]
    · rw [List.flatMap_cons, List.flatMap_cons, ih]

theorem effects_withoutVariable (x : String) (ts : List (Tree α)) :
    (withoutVariable x ts).flatMap effects = ts.flatMap effects :=
  flatMap_effects_filter fun _ _ h => effects_of_isVariable (x := x) (by simpa using h)

variable [Scalar α]

/-- What is near a number is a constant. -/
theorem effects_of_isNear {t : Tree α} {a : α} (h : t.isNear a = true) : t.effects = [] := by
  cases t with
  | num b => exact effects_num b
  | var x => cases h
  | node op ts => cases h

theorem effects_withoutNeutral (op : NaryOp) (ts : List (Tree α)) :
    (withoutNeutral op ts).flatMap effects = ts.flatMap effects :=
  flatMap_effects_filter fun _ _ h => effects_of_isNear (by simpa using h)

theorem effects_keptOperands (op : NaryOp) (ts : List (Tree α)) :
    (keptOperands op ts).flatMap effects = ts.flatMap effects := by
  unfold keptOperands
  split
  · exact effects_withoutNeutral op ts
  · cases ts with
    | nil => rfl
    | cons t ts => exact congrArg (t.effects ++ ·) (effects_withoutNeutral op ts)

/-- Gathering constants moves nothing that has an effect. -/
theorem effects_gatherConstants (op : NaryOp) (ts : List (Tree α)) :
    (gatherConstants op ts).flatMap effects = ts.flatMap effects := by
  unfold gatherConstants
  split
  · rfl
  · exact effects_placeConstant _ ts

theorem effects_gatherRight (op : NaryOp) (t : Tree α) (ts : List (Tree α)) :
    (gatherRight op t ts).flatMap effects = (t :: ts).flatMap effects := by
  unfold gatherRight
  split
  · next ha _ =>
    have hconstant : isConstant t = true := Option.isSome_iff_exists.2 ⟨_, ha⟩
    rw [List.flatMap_cons, List.flatMap_cons, effects_num, effects_of_isConstant hconstant,
      effects_withoutConstants]
  · rw [List.flatMap_cons, List.flatMap_cons, effects_gatherConstants]

theorem effects_of_linearTerm? {t : Tree α} {x : String} {c : α}
    (h : linearTerm? t = some (x, c)) : t.effects = [] := by
  unfold linearTerm? at h
  split at h
  · exact effects_var _
  · rw [effects_nary, List.flatMap_cons, List.flatMap_singleton, effects_var, effects_num]
    rfl
  · rw [effects_nary, List.flatMap_cons, List.flatMap_singleton, effects_var, effects_num]
    rfl
  · cases h

theorem effects_normalTerm (x : String) (c : α) : (normalTerm x c).effects = [] := by
  unfold normalTerm
  split
  · exact effects_num _
  split
  · exact effects_var x
  · rw [effects_nary, List.flatMap_cons, List.flatMap_singleton, effects_var, effects_num]
    rfl

theorem effects_withoutTerms (x : String) (ts : List (Tree α)) :
    (withoutTerms x ts).flatMap effects = ts.flatMap effects := by
  refine flatMap_effects_filter fun t _ h => ?_
  cases hlinear : linearTerm? t with
  | none =>
    rw [coefficient?, hlinear] at h
    cases h
  | some p => exact effects_of_linearTerm? hlinear

/-- Merging terms moves nothing that has an effect. -/
theorem effects_mergeTerms (ts : List (Tree α)) :
    (mergeTerms ts).flatMap effects = ts.flatMap effects := by
  fun_induction mergeTerms ts with
  | case1 => rfl
  | case2 t ts h ih | case3 t ts x c hlinear hnil ih =>
    rw [List.flatMap_cons, List.flatMap_cons, ih]
  | case4 t ts x c hlinear hcs ih =>
    rw [List.flatMap_cons, List.flatMap_cons, ih, effects_normalTerm,
      effects_of_linearTerm? hlinear, effects_withoutTerms]

/-- Merged subtrahends come first, and as they have no effects the others keep theirs in order. -/
theorem effects_splitTerms (ts : List (Tree α)) :
    ((splitTerms ts).1 ++ (splitTerms ts).2).flatMap effects = ts.flatMap effects := by
  suffices h : (splitTerms ts).1.flatMap effects = [] ∧
      (splitTerms ts).2.flatMap effects = ts.flatMap effects by
    rw [List.flatMap_append, h.1, h.2, List.nil_append]
  fun_induction splitTerms ts with
  | case1 => exact ⟨rfl, rfl⟩
  | case2 t ts h ih | case3 t ts x c hlinear hnil ih =>
    exact ⟨ih.1, by rw [List.flatMap_cons, List.flatMap_cons, ih.2]⟩
  | case4 t ts x c hlinear hcs ih =>
    refine ⟨?_, ?_⟩
    · rw [List.flatMap_cons, effects_normalTerm, ih.1, List.nil_append]
    · rw [ih.2, effects_withoutTerms, List.flatMap_cons, effects_of_linearTerm? hlinear,
        List.nil_append]

theorem effects_reduceMinuend (t : Tree α) (ts : List (Tree α)) :
    (reduceMinuend t ts).1.effects = t.effects ∧
      (reduceMinuend t ts).2.flatMap effects = ts.flatMap effects := by
  fun_cases reduceMinuend t ts with
  | case1 h | case2 x c hlinear hnil => exact ⟨rfl, rfl⟩
  | case3 x c hlinear hcs =>
    exact ⟨by rw [effects_normalTerm, effects_of_linearTerm? hlinear], effects_withoutTerms x ts⟩

/-- Neither the minuend nor the subtrahends lose an effect. -/
theorem effects_mergeDifference (t : Tree α) (ts : List (Tree α)) :
    (mergeDifference t ts).flatMap effects = (t :: ts).flatMap effects := by
  obtain ⟨hminuend, hsubtrahends⟩ := effects_reduceMinuend t ts
  rw [mergeDifference, List.flatMap_cons, List.flatMap_cons, hminuend, effects_splitTerms,
    hsubtrahends]

theorem effects_mergeFactors (ts : List (Tree α)) :
    (mergeFactors ts).flatMap effects = ts.flatMap effects := by
  fun_induction mergeFactors ts with
  | case1 => rfl
  | case2 x ts h ih => rw [List.flatMap_cons, List.flatMap_cons, ih]
  | case3 x ts n h ih =>
    rw [List.flatMap_cons, List.flatMap_cons, ih, effects_withoutVariable, effects_nary,
      List.flatMap_cons, List.flatMap_singleton, effects_var, effects_num]
    rfl
  | case4 t ts _ ih => rw [List.flatMap_cons, List.flatMap_cons, ih]

/-- What is left is a constant, or has the effects that were there before. -/
def KeepsEffects (t t' : Tree α) : Prop := (∃ a, t' = .num a) ∨ t'.effects = t.effects

/-- Every rule keeps the effects, unless it leaves a constant. -/
theorem rewrites_keepEffects : ∀ f ∈ rewrites (α := α), Respects KeepsEffects f := by
  have hnary : ∀ {op : NaryOp} {ts us : List (Tree α)}, us.flatMap effects = ts.flatMap effects →
      KeepsEffects (.node (.nary op) ts) (.node (.nary op) us) := by
    intro op ts us h
    exact Or.inr (by rw [effects_nary, effects_nary, h])
  simp only [rewrites, List.forall_mem_cons]
  refine ⟨?removeNeutral, ?spliceUp, ?powerZero, ?zeroPower, ?divideZero, ?multiplyZero, ?evaluate,
    ?flatten, ?foldConstants, ?combineTerms, ?subtractTerms, ?combineFactors,
    List.forall_mem_nil _⟩ <;> intro t t' h
  case removeNeutral =>
    obtain ⟨op, ts, rfl, rfl, -⟩ := removeNeutral_eq_some h
    exact hnary (effects_keptOperands op ts)
  case spliceUp =>
    obtain ⟨op, ⟨rfl, rfl⟩ | rfl⟩ := spliceUp_eq_some h
    · exact Or.inl ⟨_, rfl⟩
    · exact Or.inr (by rw [effects_nary, List.flatMap_singleton])
  case powerZero => exact Or.inl (shortCircuit_eq_some (Or.inl h))
  case zeroPower => exact Or.inl (shortCircuit_eq_some (Or.inr (Or.inl h)))
  case divideZero => exact Or.inl (shortCircuit_eq_some (Or.inr (Or.inr (Or.inl h))))
  case multiplyZero => exact Or.inl (shortCircuit_eq_some (Or.inr (Or.inr (Or.inr h))))
  case evaluate =>
    obtain ⟨op, ts, e, a, -, -, -, -, rfl⟩ := evaluate_eq_some h
    exact Or.inl ⟨a, rfl⟩
  -- an operand that is inlined has its own operands in its place, in the same order
  case flatten =>
    obtain ⟨op, first, others, rfl, -, rfl⟩ := flatten_eq_some h
    refine hnary ?_
    rw [List.flatMap_append, effects_spread, effects_flatMap_spread, List.flatMap_cons]
  case foldConstants =>
    obtain ⟨op, t, ts, us, rfl, rfl, -, hus⟩ := foldConstants_eq_some h
    rcases hus with ⟨-, rfl⟩ | ⟨-, rfl⟩ | ⟨-, -, rfl⟩
    · exact hnary (effects_gatherConstants op _)
    · exact hnary (effects_gatherRight op t ts)
    · exact hnary (congrArg (t.effects ++ ·) (effects_gatherConstants op ts))
  case combineTerms =>
    obtain ⟨ts, rfl, -, rfl⟩ := combineTerms_eq_some.1 h
    exact hnary (effects_mergeTerms _)
  case subtractTerms =>
    obtain ⟨first, others, rfl, -, rfl⟩ := subtractTerms_eq_some.1 h
    exact hnary (effects_mergeDifference _ _)
  case combineFactors =>
    obtain ⟨ts, rfl, -, rfl⟩ := combineFactors_eq_some.1 h
    exact hnary (effects_mergeFactors _)

/-- Simplification at the root keeps the effects, unless it leaves a constant. -/
theorem effects_root (t : Tree α) : KeepsEffects t (root t).result := by
  -- A constant stays a constant, so that what follows it cannot bring back what it has lost.
  let R (t t' : Tree α) : Prop := ((∃ a, t = .num a) → t' = t) ∧ KeepsEffects t t'
  have hrewrites : ∀ f ∈ rewrites (α := α), Respects R f := by
    intro f hf t t' h
    refine ⟨?_, rewrites_keepEffects f hf t t' h⟩
    rintro ⟨a, rfl⟩
    rcases rewrite_eq_none (t := .num a) (fun _ _ heq => by cases heq) f hf with hnone | rfl
    · rw [hnone] at h
      cases h
    · cases h
  have hroot : R t (root t).result := by
    refine root_respects (R := R) (fun t => ⟨fun _ => rfl, Or.inr rfl⟩) ?_ hrewrites t
    rintro s t u ⟨hst, hs⟩ ⟨htu, ht⟩
    refine ⟨fun hnum => ?_, ?_⟩
    · have heq := hst hnum
      exact (htu (heq ▸ hnum)).trans heq
    · rcases hs with hnum | hs
      · exact Or.inl (htu hnum ▸ hnum)
      · exact ht.imp id fun ht => ht.trans hs
  exact hroot.2

end Simplify

/-! ## Effects that last -/

namespace Tree

variable [Scalar α]

/-- The effects of a tree without those inside of arithmetic that is simplified to a constant. -/
def lastingEffects : Tree α → List Effect
  | num _ => []
  | var _ => []
  | node op ts =>
    if op.isArithmetic && Simplify.isConstant (node op ts).simplify then []
    else (ts.map lastingEffects).flatten ++ op.effects ts

theorem lastingEffects_num (a : α) : (num a).lastingEffects = [] := by rw [lastingEffects]

theorem lastingEffects_var (x : String) : (var x : Tree α).lastingEffects = [] := by
  rw [lastingEffects]

/-- Of arithmetic that becomes a constant no effect is left. -/
theorem lastingEffects_of_constant {op : Operator} {ts : List (Tree α)} {a : α}
    (hop : op.isArithmetic = true) (h : (node op ts).simplify = num a) :
    (node op ts).lastingEffects = [] := by
  rw [lastingEffects, if_pos]
  rw [hop, h]
  rfl

/-- Of anything else the effects that the operands have left, and its own. -/
theorem lastingEffects_node {op : Operator} {ts : List (Tree α)}
    (h : op.isArithmetic = true → ∀ a, (node op ts).simplify ≠ num a) :
    (node op ts).lastingEffects = ts.flatMap lastingEffects ++ op.effects ts := by
  rw [lastingEffects, if_neg, List.flatMap_def]
  rw [Bool.and_eq_true]
  rintro ⟨hop, hconstant⟩
  obtain ⟨a, ha⟩ := Option.isSome_iff_exists.1 hconstant
  cases hs : (node op ts).simplify with
  | num b => exact h hop b hs
  | var x => rw [hs] at ha; cases ha
  | node op' us => rw [hs] at ha; cases ha

/-- The effects that are left come in the order in which they did. -/
theorem lastingEffects_sublist (t : Tree α) : t.lastingEffects.Sublist t.effects := by
  induction t using operands_induction with
  | num a => rw [lastingEffects_num]; exact List.nil_sublist _
  | var x => rw [lastingEffects_var]; exact List.nil_sublist _
  | node op ts ih =>
    rw [lastingEffects, effects]
    split
    · exact List.nil_sublist _
    · refine List.Sublist.append ?_ (List.Sublist.refl _)
      clear * - ih
      induction ts with
      | nil => exact List.Sublist.refl _
      | cons t ts ihts =>
        obtain ⟨ht, hts⟩ := List.forall_mem_cons.1 ih
        exact List.Sublist.append ht (ihts hts)

/-- All effects last if none is inside of arithmetic that is simplified to a constant. -/
theorem lastingEffects_eq {t : Tree α} (h : ∀ op ts, node op ts ∈ t.postOrder →
    op.isArithmetic = true → (node op ts).effects ≠ [] → ∀ a, (node op ts).simplify ≠ num a) :
    t.lastingEffects = t.effects := by
  induction t using operands_induction with
  | num a => rw [lastingEffects_num, effects_num]
  | var x => rw [lastingEffects_var, effects_var]
  | node op ts ih =>
    have hself : node op ts ∈ (node op ts).postOrder := by rw [postOrder]; simp
    by_cases hnone : (node op ts).effects = []
    · rw [hnone]
      exact List.sublist_nil.1 (hnone ▸ lastingEffects_sublist (node op ts))
    · rw [lastingEffects_node fun hop => h op ts hself hop hnone, effects_node]
      refine congrArg (· ++ op.effects ts) (List.flatMap_congr fun t ht => ih t ht ?_)
      intro op' us hmem
      refine h op' us ?_
      rw [postOrder]
      exact List.mem_append_left _ (List.mem_flatten.2 ⟨_, List.mem_map_of_mem ht, hmem⟩)

/-- The effect of an operator is the same when its operands are simplified. -/
theorem effects_map_simplify {op : Operator} {ts : List (Tree α)} (h : (node op ts).Formed) :
    op.effects (ts.map simplify) = op.effects ts := by
  cases op with
  | assign =>
    obtain ⟨x, us, rfl⟩ := h.assign ts rfl
    rw [List.map_cons, simplify_var]
    rfl
  | _ => rfl

/-- The effects of a simplified tree are those that last. -/
theorem effects_simplified {t : Tree α} (h : t.Each Formed) :
    t.simplify.effects = t.lastingEffects := by
  induction t using operands_induction with
  | num a => rw [simplify_num, effects_num, lastingEffects_num]
  | var x => rw [simplify_var, effects_var, lastingEffects_var]
  | node op ts ih =>
    obtain ⟨hts, hself⟩ := each_node.1 h
    have hoperands : (node op (ts.map simplify)).effects =
        ts.flatMap lastingEffects ++ op.effects ts := by
      rw [effects_node, effects_map_simplify hself, List.flatMap_map]
      exact congrArg (· ++ op.effects ts) (List.flatMap_congr fun t ht => ih t ht (hts t ht))
    -- only a node that becomes a constant loses the effects in it
    by_cases hconstant : ∃ a, (node op ts).simplify = num a
    · obtain ⟨a, ha⟩ := hconstant
      cases hop : op.isArithmetic with
      | true => rw [lastingEffects_of_constant hop ha, ha, effects_num]
      | false =>
        rw [simplify_of_not_isArithmetic hop] at ha
        cases ha
    · rw [lastingEffects_node fun _ a ha => hconstant ⟨a, ha⟩, ← hoperands, simplify_node]
      rcases Simplify.effects_root (node op (ts.map simplify)) with ⟨a, ha⟩ | hkept
      · exact absurd ⟨a, (simplify_node op ts).trans ha⟩ hconstant
      · exact hkept

end Tree

/-! ## Parsed trees -/

/-- Simplification neither duplicates nor reorders the effects of a parsed text, and drops those
alone that are inside of arithmetic which it turns into a constant. -/
theorem Entry.effects_simplify [Scalar α] [Literal α] {entry : Entry} {text : String} {t : Tree α}
    (h : entry.parse text = .ok t) :
    t.simplify.effects = t.lastingEffects ∧ t.simplify.effects.Sublist t.effects ∧
      ((∀ op ts, .node op ts ∈ t.postOrder → op.isArithmetic = true →
        (Tree.node op ts).effects ≠ [] → ∀ a, (Tree.node op ts).simplify ≠ .num a) →
          t.simplify.effects = t.effects) := by
  have hshape : entry.Shape (fun _ => True) t := Entry.shape_of_parse h fun _ _ => trivial
  have hlasting := Tree.effects_simplified hshape.formed
  refine ⟨hlasting, ?_, fun hnone => ?_⟩
  · rw [hlasting]
    exact t.lastingEffects_sublist
  · rw [hlasting]
    exact Tree.lastingEffects_eq hnone

/-- The statement is a product with a call for a factor. -/
theorem Entry.parse_zero_times_call [Literal α] : Entry.statements.parse "0*f(x);$" =
    .ok (.node .sequence [.node (.nary .mul)
      [.num (Literal.ofDigits "0" : α), .node (.call "f") [.var "x"]]]) := by
  cbv

/-- The text `0*f(x);` over doubles. -/
theorem Entry.effects_simplify_zero_times_call :
    ∃ t : Tree Float, Entry.statements.parse "0*f(x);$" = .ok t ∧
      t.simplify.effects = t.lastingEffects ∧ t.simplify.effects.Sublist t.effects :=
  have h := Entry.effects_simplify (α := Float) Entry.parse_zero_times_call
  ⟨_, Entry.parse_zero_times_call, h.1, h.2.1⟩

/-- The call in `0*f(x);` is dropped. -/
theorem Entry.effects_dropped :
    ∃ t : Tree Float, Entry.statements.parse "0*f(x);$" = .ok t ∧ t.effects = [.call "f"] ∧
      t.simplify.effects = [] := by
  refine ⟨_, Entry.parse_zero_times_call, ?_, ?_⟩
  · simp [Tree.effects, Operator.effects]
  · have hzero : Scalar.isZero (Literal.ofDigits "0" : Float) = true := by decide +kernel
    have hone : Scalar.isOne (Literal.ofDigits "0" : Float) = false := by decide +kernel
    have hcall : (Tree.node (.call "f") [.var "x"] : Tree Float).simplify =
        .node (.call "f") [.var "x"] := by
      rw [Tree.simplify_node, List.map_singleton, Tree.simplify_var]
      rfl
    -- the product has a factor near zero, whatever the call is worth
    have hproduct : ∃ a, (Tree.node (.nary .mul) [.num (Literal.ofDigits "0" : Float),
        .node (.call "f") [.var "x"]]).simplify = .num a := by
      rw [Tree.simplify_node, List.map_cons, List.map_singleton, Tree.simplify_num, hcall]
      have hmem : .num (Literal.ofDigits "0" : Float) ∈
          [.num (Literal.ofDigits "0"), Tree.node (.call "f") [.var "x"]] := List.mem_cons_self ..
      rcases Simplify.root_mul_zero hmem hzero hone with h | h
      · exact ⟨_, h⟩
      · exact ⟨_, h⟩
    obtain ⟨a, ha⟩ := hproduct
    rw [Tree.simplify_of_not_isArithmetic rfl, List.map_singleton, ha, Tree.effects_node,
      List.flatMap_singleton, Tree.effects_num]
    rfl

end Fluxion

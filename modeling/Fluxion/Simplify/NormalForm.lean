import Fluxion.Simplify.Neutral
import Fluxion.Simplify.Absorbing
import Fluxion.Simplify.Constants
import Fluxion.Simplify.Associativity
import Fluxion.Simplify.LikeTerms

/-!
# Simplification to a normal form

One pass applies every group of rules to the root, in a fixed order. A tree is simplified by
simplifying its operands and then repeating the pass at the root until no rule applies. Only
arithmetic operators are rewritten; of statements, comparisons, assignments and calls the operands
are simplified and nothing else.
-/

namespace Fluxion

namespace Simplify

variable {α : Type} [Scalar α]

/-- Every group of rules once, in order. -/
def pass : Rule α :=
  Rule.inTurn [identities, shortCircuits, Rule.named .evaluate evaluate,
    Rule.named .flatten flatten, Rule.named .foldConstants foldConstants, collections]

/-- What the rules do, each by itself. -/
def rewrites : List (Tree α → Option (Tree α)) :=
  [removeNeutral, spliceUp, powerZero, zeroPower, divideZero, multiplyZero, evaluate, flatten,
    foldConstants, combineTerms, subtractTerms, combineFactors]

/-- What every rule ensures, a pass does. -/
theorem pass_ensures {P : Tree α → Rewrite α → Prop} (hP : Rule.Composes P)
    (h : ∀ f ∈ rewrites, ∀ step, Rule.Ensures P (Rule.named step f)) : Rule.Ensures P pass := by
  simp only [rewrites, List.forall_mem_cons] at h
  obtain ⟨hremove, hsplice, hpower, hbase, hdividend, hfactor, hevaluate, hflatten, hfold, hadd,
    hsub, hmul, -⟩ := h
  -- within a group the rules come in turn, or the first that applies
  have hidentities : Rule.Ensures P identities := by
    refine .inTurn hP ?_
    simp only [List.forall_mem_cons]
    exact ⟨hremove _, hsplice _, List.forall_mem_nil _⟩
  have hshort : Rule.Ensures P shortCircuits := by
    refine .first ?_
    simp only [List.forall_mem_cons]
    exact ⟨hpower _, hbase _, hdividend _, hfactor _, List.forall_mem_nil _⟩
  have hcollections : Rule.Ensures P collections := by
    refine .first ?_
    simp only [List.forall_mem_cons]
    exact ⟨hadd _, hsub _, hmul _, List.forall_mem_nil _⟩
  refine .inTurn hP ?_
  simp only [List.forall_mem_cons]
  exact ⟨hidentities, hshort, hevaluate _, hflatten _, hfold _, hcollections, List.forall_mem_nil _⟩

/-- Every rule that fires leaves a lighter tree. -/
theorem lighter_of_rewrite {f : Tree α → Option (Tree α)} (hf : f ∈ rewrites) {t t' : Tree α}
    (h : f t = some t') : Tree.Lighter t' t := by
  simp only [rewrites, List.mem_cons, List.not_mem_nil, or_false] at hf
  rcases hf with rfl | rfl | rfl | rfl | rfl | rfl | rfl | rfl | rfl | rfl | rfl | rfl
  · exact removeNeutral_shrinking h
  · exact spliceUp_shrinking h
  · exact powerZero_shrinking h
  · exact zeroPower_shrinking h
  · exact divideZero_shrinking h
  · exact multiplyZero_shrinking h
  · exact evaluate_shrinking h
  · exact flatten_shrinking h
  · exact foldConstants_shrinking h
  · exact combineTerms_shrinking h
  · exact subtractTerms_shrinking h
  · exact combineFactors_shrinking h

/-- Every pass that does something leaves a lighter tree, so passes come to an end. -/
theorem pass_shrinks : Rule.Shrinks (pass : Rule α) :=
  pass_ensures Rule.Shrinks.composes fun _ hf _ => .named fun _ _ h => lighter_of_rewrite hf h

/-- The pass repeated at the root, if that is an arithmetic operator. -/
def root (t : Tree α) : Rewrite α :=
  match t with
  | .node op ts =>
    if op.isArithmetic then Rule.exhaust pass pass_shrinks (.node op ts) else ⟨.node op ts, []⟩
  | leaf => ⟨leaf, []⟩

/-- What every rule ensures, simplification at the root does. -/
theorem root_ensures {P : Tree α → Rewrite α → Prop} (hP : Rule.Composes P)
    (hnone : ∀ t, P t ⟨t, []⟩) (h : ∀ f ∈ rewrites, ∀ step, Rule.Ensures P (Rule.named step f))
    (t : Tree α) : P t (root t) := by
  unfold root
  split
  · split
    · exact (pass_ensures hP h).exhaust hP hnone _
    · exact hnone _
  · exact hnone _

end Simplify

namespace Tree

variable {α : Type} [Scalar α]

/-- The normal form of a tree, and the steps that lead to it. -/
def simplifySteps : Tree α → Rewrite α
  | node op ts =>
    let operands := ts.map simplifySteps
    let last := Simplify.root (node op (operands.map Rewrite.result))
    ⟨last.result, (operands.map Rewrite.steps).flatten ++ last.steps⟩
  | leaf => ⟨leaf, []⟩

/-- The normal form of a tree. -/
def simplify (t : Tree α) : Tree α := t.simplifySteps.result

end Tree

end Fluxion

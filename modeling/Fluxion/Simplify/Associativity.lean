import Fluxion.Simplify.Rule

/-!
# Operands inlined into their parent

`a + (b + c) = a + b + c`, `a * (b * c) = a * b * c`, `a - (b + c) = a - b - c` and
`(a ^ b) ^ c = a ^ b ^ c`: an operand takes no operator of its own where its parent's will do. For a
difference that is the case after the first operand, for a power at the first only.
-/

namespace Fluxion.Simplify

variable {α : Type}

/-- The operator whose operands may stand in place of the first operand of another. -/
def inlinedFirst? : NaryOp → Option NaryOp
  | .add => some .add
  | .mul => some .mul
  | .pow => some .pow
  | .sub | .div => none

/-- The operator whose operands may stand in place of an operand after the first. -/
def inlinedLater? : NaryOp → Option NaryOp
  | .add => some .add
  | .mul => some .mul
  | .sub => some .add
  | .div | .pow => none

/-- The tree is the given operator, if there is one. -/
def isInlined (inner : Option NaryOp) (t : Tree α) : Bool :=
  match inner with
  | some op => t.isOperator (.nary op)
  | none => false

/-- The operands that stand for a tree: its own if it is the given operator, else itself. -/
def spread (inner : Option NaryOp) (t : Tree α) : List (Tree α) :=
  if isInlined inner t then t.operands else [t]

/-- Inlines every operand that can be. -/
def flatten : Tree α → Option (Tree α)
  | .node (.nary op) (first :: others) =>
    if isInlined (inlinedFirst? op) first || others.any (isInlined (inlinedLater? op)) then
      some (.node (.nary op)
        (spread (inlinedFirst? op) first ++ others.flatMap (spread (inlinedLater? op))))
    else none
  | _ => none

/-- Some operand is replaced by its own operands, where its operator allows that at this place. -/
theorem flatten_eq_some {t t' : Tree α} (h : flatten t = some t') :
    ∃ op first others, t = .node (.nary op) (first :: others) ∧
      (isInlined (inlinedFirst? op) first || others.any (isInlined (inlinedLater? op))) = true ∧
      t' = .node (.nary op)
        (spread (inlinedFirst? op) first ++ others.flatMap (spread (inlinedLater? op))) := by
  unfold flatten at h
  split at h
  · next op first others =>
    rw [Option.ite_none_right_eq_some, Option.some.injEq] at h
    exact ⟨op, first, others, rfl, h.1, h.2.symm⟩
  · cases h

/-- The operands of an inlined node weigh as much as it, the node itself apart. -/
theorem totals_spread (inner : Option NaryOp) (t : Tree α) :
    Tree.totalVariables (spread inner t) = t.variableCount ∧
      Tree.totalWeight (spread inner t) + (if isInlined inner t then 2 else 0) = t.weight := by
  unfold spread
  split
  · next h =>
    cases t with
    | num a => cases inner <;> simp [isInlined, Tree.isOperator, Tree.operator?] at h
    | var x => cases inner <;> simp [isInlined, Tree.isOperator, Tree.operator?] at h
    | node op ts =>
      constructor
      · simp [Tree.operands]
      · simp only [Tree.operands, Tree.weight_node]; omega
  · simp

/-- Each operand that is inlined takes two off the weight, and no variable. -/
theorem totals_flatMap_spread (inner : Option NaryOp) (ts : List (Tree α)) :
    Tree.totalVariables (ts.flatMap (spread inner)) = Tree.totalVariables ts ∧
      Tree.totalWeight (ts.flatMap (spread inner)) + (if ts.any (isInlined inner) then 2 else 0) ≤
        Tree.totalWeight ts := by
  induction ts with
  | nil => simp
  | cons t ts ih =>
    have ht := totals_spread inner t
    simp only [List.flatMap_cons, Tree.totalVariables_append, Tree.totalWeight_append,
      Tree.totalVariables_cons, Tree.totalWeight_cons, List.any_cons]
    by_cases h : isInlined inner t
    · simp only [h, if_true, Bool.true_or] at ht ⊢
      split at ih <;> omega
    · simp only [h, Bool.false_eq_true, if_false, Bool.false_or] at ht ⊢
      omega

/-- With every operand that is inlined a node goes. -/
theorem flatten_shrinking : Shrinking (flatten (α := α)) := by
  intro t t' h
  obtain ⟨op, first, others, rfl, hinlined, rfl⟩ := flatten_eq_some h
  have hfirst := totals_spread (inlinedFirst? op) first
  have hothers := totals_flatMap_spread (inlinedLater? op) others
  apply Tree.node_lighter
  · simp only [Tree.totalVariables_append, Tree.totalVariables_cons]
    omega
  · simp only [Tree.totalWeight_append, Tree.totalWeight_cons]
    rcases Bool.or_eq_true_iff.1 hinlined with h | h
    · simp only [h, if_true] at hfirst
      omega
    · simp only [h, if_true] at hothers
      omega

end Fluxion.Simplify

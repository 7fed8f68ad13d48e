import Fluxion.Simplify.Rule

/-!
# Neutral operands and single operands

A constant near the neutral number of an operator is left out, except as the first operand of an
operator for which it is neutral on the right only. An operator left with one operand is that
operand, and one left with none is its neutral number.
-/

namespace Fluxion.Simplify

variable {α : Type} [Scalar α]

/-- The neutral number of an operator. -/
def neutral (op : NaryOp) : α := Scalar.ofNat op.neutral

/-- The operands that are not near the neutral number. -/
def withoutNeutral (op : NaryOp) (ts : List (Tree α)) : List (Tree α) :=
  ts.filter fun t => !t.isNear (neutral op)

/-- The operands to keep: where the neutral number is neutral on the right only, the first stays. -/
def keptOperands (op : NaryOp) (ts : List (Tree α)) : List (Tree α) :=
  if op.commutes then withoutNeutral op ts
  else match ts with
    | [] => []
    | t :: ts => t :: withoutNeutral op ts

/-- Leaves out neutral operands. -/
def removeNeutral : Tree α → Option (Tree α)
  | .node (.nary op) ts =>
    let kept := keptOperands op ts
    if kept.length < ts.length then some (.node (.nary op) kept) else none
  | _ => none

/-- Replaces an operator with fewer than two operands. -/
def spliceUp : Tree α → Option (Tree α)
  | .node (.nary op) [] => some (.num (neutral op))
  | .node (.nary _) [t] => some t
  | _ => none

/-- Both rules, one after the other. -/
def identities : Rule α :=
  Rule.inTurn [Rule.named .removeNeutral removeNeutral, Rule.named .spliceUp spliceUp]

/-- Operands are left out, and none is changed or moved. -/
theorem keptOperands_sublist (op : NaryOp) (ts : List (Tree α)) :
    (keptOperands op ts).Sublist ts := by
  unfold keptOperands
  split
  · exact List.filter_sublist
  · cases ts with
    | nil => exact List.Sublist.refl _
    | cons t ts => exact List.Sublist.cons_cons t List.filter_sublist

/-- Some operands are left out, and none is changed. -/
theorem removeNeutral_eq_some {t t' : Tree α} (h : removeNeutral t = some t') :
    ∃ op ts, t = .node (.nary op) ts ∧ t' = .node (.nary op) (keptOperands op ts) ∧
      (keptOperands op ts).length < ts.length := by
  unfold removeNeutral at h
  split at h
  · next op ts =>
    simp only [Option.ite_none_right_eq_some, Option.some.injEq] at h
    exact ⟨op, ts, rfl, h.2.symm, h.1⟩
  · cases h

/-- An operator without operands becomes its neutral number, one with a single operand that operand.
-/
theorem spliceUp_eq_some {t t' : Tree α} (h : spliceUp t = some t') :
    ∃ op, t = .node (.nary op) [] ∧ t' = .num (neutral op) ∨ t = .node (.nary op) [t'] := by
  unfold spliceUp at h
  split at h
  · next op =>
    cases h
    exact ⟨op, Or.inl ⟨rfl, rfl⟩⟩
  · next op t =>
    cases h
    exact ⟨op, Or.inr rfl⟩
  · cases h

theorem removeNeutral_shrinking : Shrinking (removeNeutral (α := α)) := by
  intro t t' h
  obtain ⟨op, ts, rfl, rfl, hshorter⟩ := removeNeutral_eq_some h
  exact Tree.node_lighter_of_sublist (keptOperands_sublist op ts) hshorter

/-- A single operand is lighter than the operator on it. -/
theorem spliceUp_shrinking : Shrinking (spliceUp (α := α)) := by
  intro t t' h
  obtain ⟨op, ⟨rfl, rfl⟩ | rfl⟩ := spliceUp_eq_some h
  · exact Tree.num_lighter _ _ _
  · constructor
    · simp
    · simp only [Tree.weight_node, Tree.totalWeight_cons, Tree.totalWeight_nil]
      omega

end Fluxion.Simplify

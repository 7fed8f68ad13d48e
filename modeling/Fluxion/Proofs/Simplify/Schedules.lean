import Fluxion.Tree.Edit
import Fluxion.Proofs.Simplify.Settled

/-!
# The order in which subtrees are simplified

A tree can be simplified piecemeal: a subtree is simplified where it stands, then another of what
the tree has become, and so on. However that is done, simplifying the whole afterwards yields the
normal form of the tree as it was (`Tree.simplify_visited`).

The normal form of a node depends on the normal forms of its operands only, so that nothing is lost
or gained by putting in place of an operand another tree with the same normal form. A normal form is
such a tree, since it is its own.
-/

namespace Fluxion.Tree

variable {α : Type} [Scalar α]

/-! ## One subtree -/

/-- Operands with the same normal forms make nodes with the same normal form. -/
theorem simplify_node_congr (op : Operator) {ts us : List (Tree α)}
    (h : ts.map simplify = us.map simplify) : (node op ts).simplify = (node op us).simplify := by
  rw [simplify_node, simplify_node, h]

omit [Scalar α] in
/-- A change to one operand is not seen by a function that does not see it on that operand. -/
theorem map_modify_of_eq {β : Type} {f : Tree α → Tree α} {g : Tree α → β} (h : ∀ t, g (f t) = g t)
    (ts : List (Tree α)) (i : Nat) : (ts.modify i f).map g = ts.map g := by
  refine List.ext_getElem (by simp only [List.length_map, List.length_modify]) fun k _ _ => ?_
  simp only [List.getElem_map, List.getElem_modify]
  split
  · exact h _
  · rfl

/-- A part replaced by one with the same normal form leaves the normal form of the whole. -/
theorem simplify_modifyAt {f : Tree α → Tree α} (h : ∀ t, (f t).simplify = t.simplify)
    (place : List Nat) (t : Tree α) : (t.modifyAt f place).simplify = t.simplify := by
  induction place generalizing t with
  | nil => exact h t
  | cons i place ih =>
    cases t with
    | num a => rfl
    | var x => rfl
    | node op ts => exact simplify_node_congr op (map_modify_of_eq ih ts i)

/-- A normal form is its own normal form. -/
theorem simplify_simplify [LawfulScalar α] (t : Tree α) : t.simplify.simplify = t.simplify :=
  t.simplify_settled.simplify_eq

/-! ## One after another -/

/-- The subtrees at some places are simplified one after another, each place being looked up in the
tree that the ones before it have left. -/
def visit (t : Tree α) (places : List (List Nat)) : Tree α :=
  places.foldl (fun u place => u.modifyAt simplify place) t

/-- Whatever is simplified first, and how often, the normal form of the whole is the same. -/
theorem simplify_visited [LawfulScalar α] (t : Tree α) (places : List (List Nat)) :
    (t.visit places).simplify = t.simplify := by
  induction places generalizing t with
  | nil => rfl
  | cons place places ih =>
    calc (t.visit (place :: places)).simplify
        = ((t.modifyAt simplify place).visit places).simplify := rfl
      _ = (t.modifyAt simplify place).simplify := ih _
      _ = t.simplify := simplify_modifyAt simplify_simplify place t

open Simplify

/-- In `(x + 0) + x` over doubles the operand on the left loses its zero, and so comes to be a leaf.
-/
theorem simplify_visited_sum :
    (node (.nary .add) [node (.nary .add) [var "x", num (Scalar.ofNat 0)],
      var "x"] : Tree Float).visit
        [[0]] = node (.nary .add) [var "x", var "x"] ∧
      ((node (.nary .add) [node (.nary .add) [var "x", num (Scalar.ofNat 0)], var "x"] :
          Tree Float).visit [[0], [1], [], [0]]).simplify =
        (node (.nary .add) [node (.nary .add) [var "x", num (Scalar.ofNat 0)],
          var "x"]).simplify := by
  have hzero : Scalar.near (Scalar.ofNat 0 : Float) (Scalar.ofNat 0) = true :=
    (LawfulScalar.near_ofNat_zero_iff 0).2 rfl
  have hkept : keptOperands .add [var "x", num (Scalar.ofNat 0)] = [(var "x" : Tree Float)] := by
    simp [keptOperands, withoutNeutral, NaryOp.commutes, NaryOp.neutral, neutral, isNear, hzero]
  have hsum : (node (.nary .add) [var "x", num (Scalar.ofNat 0)] : Tree Float).simplify =
      var "x" := by
    rw [simplify_node]
    refine root_of_pass_left rfl ?_ (settled_var "x")
    rw [List.map_cons, List.map_singleton, simplify_var, simplify_num, Simplify.pass,
      Rule.left_inTurn_cons, identities_left, hkept]
    rfl
  refine ⟨?_, simplify_visited _ _⟩
  show node (.nary .add) [simplify _, _] = _
  rw [hsum]

end Fluxion.Tree

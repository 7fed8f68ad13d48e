import Fluxion.Tree.Basic

/-!
# Editing trees

A place in a tree is the list of operand numbers that leads to it from the root. The tree at a place
can be looked up and replaced; operands can be attached to and detached from an operator.
-/

namespace Fluxion.Tree

variable {α : Type}

/-- The tree at a place, if there is one. -/
def at? (t : Tree α) : List Nat → Option (Tree α)
  | [] => some t
  | i :: path =>
    match t.operands[i]? with
    | some operand => operand.at? path
    | none => none

/-- A path leads through the operand that its first step names. -/
theorem at?_cons (t : Tree α) (i : Nat) (path : List Nat) :
    t.at? (i :: path) = t.operands[i]?.bind fun operand => operand.at? path := by
  rw [at?]
  cases t.operands[i]? <;> rfl

/-- The tree with its part at a place changed. A place that is not in the tree changes nothing. -/
def modifyAt (f : Tree α → Tree α) (t : Tree α) : List Nat → Tree α
  | [] => f t
  | i :: path =>
    match t with
    | node op ts => node op (ts.modify i fun operand => operand.modifyAt f path)
    | leaf => leaf

/-- The tree with one more operand at the end, or nothing for a leaf. -/
def attach? (t child : Tree α) : Option (Tree α) :=
  match t with
  | node op ts => some (node op (ts ++ [child]))
  | _ => none

/-- The operand with a given number, and the tree without it. -/
def detach? (t : Tree α) (i : Nat) : Option (Tree α × Tree α) :=
  match t with
  | node op ts => ts[i]?.map fun operand => (operand, node op (ts.eraseIdx i))
  | _ => none

end Fluxion.Tree

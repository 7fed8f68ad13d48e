import Fluxion.Tree.Basic

/-!
# Precedence

How tightly the root of a tree binds when it is written between its operands. Leaves bind tightest,
then what brings brackets of its own.
-/

namespace Fluxion

/-- How tightly an operator binds its operands. -/
def Operator.precedence : Operator → Nat
  | assign => 0
  | relation _ => 1
  | nary .add | nary .sub => 2
  | nary .mul | nary .div => 3
  | nary .pow => 4
  | _ => 5

/-- How tightly a tree holds together. -/
def Tree.precedence {α : Type} (t : Tree α) : Nat :=
  match t.operator? with
  | none => 6
  | some op => op.precedence

end Fluxion

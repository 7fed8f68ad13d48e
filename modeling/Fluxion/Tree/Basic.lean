import Fluxion.Tree.Operator

/-!
# Trees

Expressions, statements and programs are trees: numbers, variables, and operators with a list of
operands. Nothing ties an operator to a number of operands; which trees are expressions is a
question of its own. Here are the parts of a node, equality of trees, and the counts by which later
recursion ends.
-/

namespace Fluxion

/-- A tree over numbers of type `α`. -/
inductive Tree (α : Type) where
  | num (value : α)
  | var (name : String)
  | node (op : Operator) (operands : List (Tree α))

namespace Tree

variable {α : Type}

/-- The operands of the root; a leaf has none. -/
def operands : Tree α → List (Tree α)
  | node _ ts => ts
  | _ => []

/-- The operator of the root, unless it is a leaf. -/
def operator? : Tree α → Option Operator
  | node op _ => some op
  | _ => none

/-- The number of a constant. -/
def value? : Tree α → Option α
  | num a => some a
  | _ => none

/-- The name that the root carries: that of a variable, of a called or of a defined function. -/
def name? : Tree α → Option String
  | num _ => none
  | var x => some x
  | node op _ => op.name?

/-- The root is the given operator. -/
def isOperator (op : Operator) (t : Tree α) : Bool := t.operator? == some op

/-- The text that stands for the root in a drawing of the tree. -/
def label [Literal α] : Tree α → String
  | num a => Literal.text a
  | var x => x
  | node op _ => op.label

/-- A constant within the tolerance of `a`. -/
def isNear [Scalar α] (t : Tree α) (a : α) : Bool :=
  match t with
  | num b => Scalar.near b a
  | _ => false

mutual

/-- Equality of trees, constants compared as stored numbers. Operands keep their order. -/
def same [Scalar α] : Tree α → Tree α → Bool
  | num a, num b => Scalar.same a b
  | var x, var y => x == y
  | node op ts, node op' ts' => op == op' && sameAll ts ts'
  | _, _ => false

/-- Equality of two lists of trees, place by place. -/
def sameAll [Scalar α] : List (Tree α) → List (Tree α) → Bool
  | [], [] => true
  | t :: ts, t' :: ts' => same t t' && sameAll ts ts'
  | _, _ => false

end

/-- The names of the variables at the leaves from left to right, each as often as it occurs. -/
def leafNames : Tree α → List String
  | num _ => []
  | var x => [x]
  | node _ ts => (ts.map leafNames).flatten

/-- Some leaf is a variable. -/
def hasVariable (t : Tree α) : Bool := !t.leafNames.isEmpty

/-- The sum of some counts. -/
def total : List Nat → Nat
  | [] => 0
  | n :: ns => n + total ns

/-- The number of nodes, leaves included. -/
def size : Tree α → Nat
  | num _ => 1
  | var _ => 1
  | node _ ts => 1 + total (ts.map size)

/-- The number of leaves and twice the number of operators. -/
def bulk : Tree α → Nat
  | num _ => 1
  | var _ => 1
  | node _ ts => 2 + total (ts.map bulk)

end Tree

end Fluxion

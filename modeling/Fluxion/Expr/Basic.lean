import Fluxion.Tree.Basic

/-!
# Expressions

The trees that can be evaluated and differentiated, as a type of their own: arithmetic with at
least one operand and functions with exactly one argument. `Expr.toTree` forgets this again, so an
expression prints and simplifies like any other tree.
-/

namespace Fluxion

/-- An expression over numbers of type `α`. -/
inductive Expr (α : Type) where
  | num (value : α)
  | var (name : String)
  | nary (op : NaryOp) (first : Expr α) (others : List (Expr α))
  | func (f : Func) (argument : Expr α)

namespace Expr

variable {α : Type}

/-- The tree of an expression. -/
def toTree : Expr α → Tree α
  | num a => .num a
  | var x => .var x
  | nary op e es => .node (.nary op) (e.toTree :: es.map toTree)
  | func f e => .node (.func f) [e.toTree]

/-- The names of the variables at the leaves from left to right, each as often as it occurs. -/
def leafNames : Expr α → List String
  | num _ => []
  | var x => [x]
  | nary _ e es => e.leafNames ++ (es.map leafNames).flatten
  | func _ e => e.leafNames

/-- Some leaf is a variable. -/
def hasVariable (e : Expr α) : Bool := !e.leafNames.isEmpty

/-- An operator with two operands. -/
def binary (op : NaryOp) (a b : Expr α) : Expr α := nary op a [b]

/-- The sum of a list of terms; that of no terms is zero. -/
def sum [Scalar α] : List (Expr α) → Expr α
  | [] => num (Scalar.ofNat 0)
  | e :: es => nary .add e es

/-- The product of a list of factors; that of no factors is one. -/
def product [Scalar α] : List (Expr α) → Expr α
  | [] => num (Scalar.ofNat 1)
  | e :: es => nary .mul e es

end Expr

end Fluxion

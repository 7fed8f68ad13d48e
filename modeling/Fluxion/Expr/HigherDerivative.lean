import Fluxion.Expr.Derivative
import Fluxion.Expr.Validation
import Fluxion.Simplify.NormalForm

/-!
# Derivatives of any order

The simplified derivative, and its repetition: each derivative is simplified before the next is
taken. What simplification leaves of an expression is an expression again, so the repetition, which
reads it as one, is never refused.
-/

namespace Fluxion

variable {α : Type} [Scalar α]

namespace Expr

/-- The derivative in normal form. -/
def simplifiedDerivative (v : String) (e : Expr α) : Tree α := (e.derivative v).toTree.simplify

end Expr

/-- The derivative of the given order of a tree that stands for an expression, that of order zero
being the tree itself. -/
def Tree.nthDerivative (v : String) (t : Tree α) : Nat → Except NotExpression (Tree α)
  | 0 => do
    let e ← t.toExpr
    return e.toTree
  | n + 1 => do
    let e ← t.toExpr
    (e.simplifiedDerivative v).nthDerivative v n

end Fluxion

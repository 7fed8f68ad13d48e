import Fluxion.Expr.Evaluation
import Fluxion.Simplify.NormalForm

/-!
# Trees taken for expressions unchecked

Derivatives and values of trees that are taken for expressions node by node, without a look at the
whole tree first. An operator of statements, a call and a function without an argument have no
derivative and no value, and neither has a tree in which one of these is met.

Chains of quotients and powers are taken from the right here: the last operand and its derivative
against all that stands before them, and the derivative of that. Operands therefore come in reverse.
-/

namespace Fluxion.Tree

variable {α : Type} [Scalar α]

/-- An operator with two operands. -/
def binary (op : NaryOp) (a b : Tree α) : Tree α := node (.nary op) [a, b]

/-- The sum of a list of terms; that of no terms is zero. -/
def sum : List (Tree α) → Tree α
  | [] => num (Scalar.ofNat 0)
  | ts => node (.nary .add) ts

/-- The product of a list of factors; that of no factors is one. -/
def product : List (Tree α) → Tree α
  | [] => num (Scalar.ofNat 1)
  | ts => node (.nary .mul) ts

/-- The terms of the derivative of a product, one for each factor that comes after those in
`before`. -/
def productTerms (before : List (Tree α)) : List (Tree α × Tree α) → List (Tree α)
  | [] => []
  | (t, t') :: after =>
    product (before ++ t' :: after.map Prod.fst) :: productTerms (before ++ [t]) after

/-- The quotient of operands in reverse: a single one by itself, or their division. -/
def quotient : List (Tree α) → Tree α
  | [t] => t
  | ts => node (.nary .div) ts.reverse

/-- The derivative of a quotient, its operands in reverse with their derivatives. -/
def quotientDerivative : List (Tree α × Tree α) → Tree α
  | [] => num (Scalar.ofNat 0)
  | [(_, t')] => t'
  | (b, b') :: before =>
    let a := quotient (before.map Prod.fst)
    binary .div (binary .sub (binary .mul (quotientDerivative before) b) (binary .mul a b'))
      (binary .pow b (num (Scalar.ofNat 2)))

/-- The power of operands in reverse, regrouped from the left: `a ^ b ^ c` as `(a ^ b) ^ c`. -/
def power : List (Tree α) → Tree α
  | [] => node (.nary .pow) []
  | [t] => t
  | e :: before => binary .pow (power before) e

/-- The derivative of `b ^ e`. A side without any variable counts as constant. -/
def powerRule (b b' e e' : Tree α) : Tree α :=
  let lowered := binary .pow b (binary .sub e (num (Scalar.ofNat 1)))
  if !b.hasVariable then node (.nary .mul) [node (.func .ln) [b], binary .pow b e, e']
  else if !e.hasVariable then node (.nary .mul) [e, lowered, b']
  else binary .add (node (.nary .mul) [binary .pow b e, e', node (.func .ln) [b]])
    (node (.nary .mul) [lowered, e, b'])

/-- The derivative of a power, its operands in reverse with their derivatives. -/
def powerDerivative : List (Tree α × Tree α) → Tree α
  | [] => num (Scalar.ofNat 0)
  | [(_, t')] => t'
  | (e, e') :: before => powerRule (power (before.map Prod.fst)) (powerDerivative before) e e'

/-- The derivative of an operator, whose operands come with their derivatives. -/
def naryDerivative (op : NaryOp) (ps : List (Tree α × Tree α)) : Tree α :=
  match op with
  | .add => node (.nary .add) (ps.map Prod.snd)
  | .sub => node (.nary .sub) (ps.map Prod.snd)
  | .mul => sum (productTerms [] ps)
  | .div => quotientDerivative ps.reverse
  | .pow => powerDerivative ps.reverse

/-- The derivative of a function at an argument `t`, by the chain rule. -/
def funcDerivative (f : Func) (t t' : Tree α) : Tree α :=
  match f with
  | .ln => product [binary .div (num (Scalar.ofNat 1)) t, t']
  | .sin => product [node (.func .cos) [t], t']
  | .cos => product [num (Scalar.neg (Scalar.ofNat 1)), node (.func .sin) [t], t']

/-- The derivative with respect to `v` of a tree taken for an expression, as far as it can be taken
for one. The operands are all differentiated, whether or not a rule needs their derivatives. -/
def derivative? (v : String) : Tree α → Option (Tree α)
  | num _ => some (num (Scalar.ofNat 0))
  | var x => some (num (Scalar.ofNat (if x = v then 1 else 0)))
  | node (.nary op) ts => do
    let derivatives ← ts.mapM (derivative? v)
    return naryDerivative op (ts.zip derivatives)
  | node (.func f) (t :: _) => do
    let derivative ← t.derivative? v
    return funcDerivative f t derivative
  | node _ _ => none

/-- The derivative of the given order, simplified after each differentiation. -/
def nthDerivative? (v : String) (t : Tree α) : Nat → Option (Tree α)
  | 0 => some t
  | n + 1 => do
    let derivative ← t.derivative? v
    derivative.simplify.nthDerivative? v n

/-- The value of a tree taken for an expression, as far as it can be taken for one. An operator
without operands has the value `0 / 0`. -/
def eval? (bindings : Bindings α) : Tree α → Option (Except UnboundVariable α)
  | num a => some (.ok a)
  | var x =>
    match bindings.lookup x with
    | some a => some (.ok a)
    | none => some (.error ⟨x⟩)
  | node (.nary op) ts => ExceptT.run do
    let values ← ts.mapM fun t => ExceptT.mk (t.eval? bindings)
    match values with
    | [] => return Scalar.div (Scalar.ofNat 0) (Scalar.ofNat 0)
    | a :: as => return as.foldl op.apply a
  | node (.func f) (t :: _) => ExceptT.run do
    let a ← ExceptT.mk (t.eval? bindings)
    return f.apply a
  | node _ _ => none

end Fluxion.Tree

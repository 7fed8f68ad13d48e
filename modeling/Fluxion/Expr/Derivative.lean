import Fluxion.Expr.Basic

/-!
# Derivatives

The derivative of an expression with respect to a variable, by the rules for sums, products,
quotients, powers and the known functions. Nothing is simplified. Each rule takes the operands
together with their derivatives, and chains of quotients and powers are taken from the left: the
first operand and its derivative, then the quotient or power with the next operand and its
derivative, and so on.
-/

namespace Fluxion.Expr

variable {α : Type} [Scalar α]

/-- The number one as an expression. -/
def one : Expr α := num (Scalar.ofNat 1)

/-- `(a · b · c)' = a' · b · c + a · b' · c + a · b · c'`, one term for each factor that comes after
those in `before`. -/
def productTerms (before : List (Expr α)) : List (Expr α × Expr α) → List (Expr α)
  | [] => []
  | (e, e') :: after =>
    product (before ++ e' :: after.map Prod.fst) :: productTerms (before ++ [e]) after

/-- The quotient of a first operand by the operands in `divisors`. -/
def quotient (first : Expr α) : List (Expr α) → Expr α
  | [] => first
  | divisors => nary .div first divisors

/-- `(a / b)' = (a' · b - a · b') / b ^ 2`, for a numerator `a` and a divisor `b`. -/
def quotientRule (a a' b b' : Expr α) : Expr α :=
  binary .div (binary .sub (binary .mul a' b) (binary .mul a b'))
    (binary .pow b (num (Scalar.ofNat 2)))

/-- The derivative of `first / divisors / …`, where `numerator'` is that of `first / divisors` and
the divisors that follow come with their derivatives. -/
def quotientDerivative (first : Expr α) (divisors : List (Expr α)) (numerator' : Expr α) :
    List (Expr α × Expr α) → Expr α
  | [] => numerator'
  | (e, e') :: after =>
    quotientDerivative first (divisors ++ [e])
      (quotientRule (quotient first divisors) numerator' e e') after

/-- The derivative of `b ^ e`. A side without any variable counts as constant:
`ln b · b ^ e · e'` for a constant base, `e · b ^ (e - 1) · b'` for a constant exponent, and
`b ^ e · e' · ln b + b ^ (e - 1) · e · b'` otherwise. -/
def powerRule (b b' e e' : Expr α) : Expr α :=
  let lowered := binary .pow b (binary .sub e one)
  if !b.hasVariable then product [func .ln b, binary .pow b e, e']
  else if !e.hasVariable then product [e, lowered, b']
  else sum [product [binary .pow b e, e', func .ln b], product [lowered, e, b']]

/-- The derivative of `base ^ …`, where the exponents that follow come with their derivatives. -/
def powerDerivative (base base' : Expr α) : List (Expr α × Expr α) → Expr α
  | [] => base'
  | (e, e') :: after => powerDerivative (binary .pow base e) (powerRule base base' e e') after

/-- The derivative of a function at an argument `e`, by the chain rule. -/
def funcDerivative (f : Func) (e e' : Expr α) : Expr α :=
  match f with
  | .ln => product [binary .div one e, e']
  | .sin => product [func .cos e, e']
  | .cos => product [num (Scalar.neg (Scalar.ofNat 1)), func .sin e, e']

/-- The derivative of an operator, whose operands come with their derivatives. -/
def naryDerivative (op : NaryOp) (first : Expr α × Expr α) (others : List (Expr α × Expr α)) :
    Expr α :=
  match op with
  | .add => nary .add first.2 (others.map Prod.snd)
  | .sub => nary .sub first.2 (others.map Prod.snd)
  | .mul => sum (productTerms [] (first :: others))
  | .div => quotientDerivative first.1 [] first.2 others
  | .pow => powerDerivative first.1 first.2 others

/-- The derivative of an expression with respect to the variable `v`. -/
def derivative (v : String) : Expr α → Expr α
  | num _ => num (Scalar.ofNat 0)
  | var x => num (Scalar.ofNat (if x = v then 1 else 0))
  | nary op e es =>
    naryDerivative op (e, e.derivative v) (es.map fun e => (e, e.derivative v))
  | func f e => funcDerivative f e (e.derivative v)

end Fluxion.Expr

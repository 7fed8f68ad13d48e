import Fluxion.Decimal.Numeral

/-!
# Numbers to compute with

Trees are built over any type of numbers that has the operations of `Scalar`; those that are read
or written also need the texts of `Literal`. Doubles have both. Nothing here asks for a law, so the
same definitions can be run on doubles, where most laws fail, and reasoned about over the reals,
where they hold.
-/

namespace Fluxion

/-- The operations that evaluation and simplification use. -/
class Scalar (α : Type) where
  /-- A whole number. -/
  ofNat : Nat → α
  neg : α → α
  add : α → α → α
  sub : α → α → α
  mul : α → α → α
  div : α → α → α
  pow : α → α → α
  ln : α → α
  sin : α → α
  cos : α → α
  /-- Less than 10⁻⁷ apart. -/
  near : α → α → Bool
  /-- Equal as stored constants: equal numbers, or both not a number. -/
  same : α → α → Bool

/-- The texts of numbers. -/
class Literal (α : Type) where
  /-- How a number is written. -/
  text : α → String
  /-- The number that digits with at most one point stand for. -/
  ofDigits : String → α
  /-- The number that a minus sign in front of a number makes. -/
  negate : α → α

/-- Constants that are less than this apart count as one. -/
def tolerance : Float := 1e-7

instance : Scalar Float where
  ofNat := Float.ofNat
  neg := Float.neg
  add := Float.add
  sub := Float.sub
  mul := Float.mul
  div := Float.div
  pow := Float.pow
  ln := Float.log
  sin := Float.sin
  cos := Float.cos
  near a b := decide (Float.abs (a - b) < tolerance)
  same a b := a == b || (a.isNaN && b.isNaN)

instance : Literal Float where
  text := Numeral.text
  ofDigits := Numeral.ofToken
  negate := Float.neg

namespace Scalar

variable {α : Type} [Scalar α]

/-- Within the tolerance of zero. -/
def isZero (a : α) : Bool := near a (ofNat 0)

/-- Within the tolerance of one. -/
def isOne (a : α) : Bool := near a (ofNat 1)

end Scalar

end Fluxion

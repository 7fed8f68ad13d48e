import Fluxion.Decimal.Basic

/-!
# Doubles as whole numbers

Every finite double is a whole number of units of 2⁻¹⁰⁷⁴, the least positive double: its bits hold
a mantissa and a shift, and it is `mantissa · 2 ^ shift` units. Rounding goes the other way: the
double nearest to a fraction of units, and of two equally near ones the one with the even mantissa.
The bits of doubles of one sign grow with their value, which lets a mantissa that rounds up to the
next power of two carry into the exponent by plain addition.
-/

namespace Fluxion.Binary64

/-- A power of two. -/
def twoTo (e : Nat) : Nat := Nat.pow 2 e

/-- The number of units in one. -/
def unitsOfOne : Nat := twoTo 1074

/-- The weight of the exponent field, which is also the least mantissa of a normal double. -/
def hidden : Nat := twoTo 52

/-- The bits of positive infinity. Smaller bits are those of the finite doubles without a sign. -/
def infinity : Nat := 2047 * hidden

/-- The bit of the sign. -/
def signBit : Nat := twoTo 63

/-- The mantissa of the double with the given bits, the sign left out. -/
def mantissa (bits : Nat) : Nat :=
  if bits / hidden = 0 then bits % hidden else bits % hidden + hidden

/-- The shift of the double with the given bits, the sign left out. -/
def shift (bits : Nat) : Nat := bits / hidden - 1

/-- The value of the finite double with the given bits, in units of 2⁻¹⁰⁷⁴. -/
def units (bits : Nat) : Nat := mantissa bits * twoTo (shift bits)

/-- The whole number nearest to `n / d`, and of two equally near ones the even one. -/
def roundHalfEven (n d : Nat) : Nat :=
  let q := n / d
  let r := n % d
  if 2 * r < d then q
  else if d < 2 * r then q + 1
  else if q % 2 = 0 then q
  else q + 1

/-- The shift at which a whole number of units has a mantissa of at most 53 bits. -/
def shiftOf (whole : Nat) : Nat := if whole < 2 * hidden then 0 else whole.log2 - 52

/-- The bits of the double nearest to `n / d` units. What is too large becomes infinity. -/
def nearest (n d : Nat) : Nat :=
  let s := shiftOf (n / d)
  min (s * hidden + roundHalfEven n (d * twoTo s)) infinity

/-- The bits of the double nearest to a decimal. -/
def ofDecimal (d : Decimal) : Nat :=
  match d.exponent with
  | .ofNat e => nearest (d.digits * Decimal.tenTo e * unitsOfOne) 1
  | .negSucc e => nearest (d.digits * unitsOfOne) (Decimal.tenTo (e + 1))

end Fluxion.Binary64

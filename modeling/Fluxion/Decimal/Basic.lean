/-!
# Decimals

A decimal is a whole number of digits times a power of ten. Its positional text writes every digit
out, with a point only where there is a fraction, and never an exponent; a text of digits with at
most one point is read back as a decimal of the same value.
-/

namespace Fluxion

/-- The number `digits · 10 ^ exponent`. -/
structure Decimal where
  digits : Nat
  exponent : Int
  deriving DecidableEq

namespace Decimal

/-- A power of ten. -/
def tenTo (e : Nat) : Nat := Nat.pow 10 e

/-- The same number without zeros at the end of its digits. -/
def strip (d : Decimal) : Decimal :=
  if h : d.digits ≠ 0 ∧ d.digits % 10 = 0 then strip ⟨d.digits / 10, d.exponent + 1⟩ else d
termination_by d.digits
decreasing_by exact Nat.div_lt_self (Nat.pos_of_ne_zero h.1) (by decide)

/-- Digits with a point before the last `places` of them, led by a zero if none stand before it. -/
def withPoint (digits : List Char) (places : Nat) : List Char :=
  if digits.length ≤ places then
    '0' :: '.' :: List.replicate (places - digits.length) '0' ++ digits
  else digits.take (digits.length - places) ++ '.' :: digits.drop (digits.length - places)

/-- The decimal in positional notation. -/
def chars (d : Decimal) : List Char :=
  match d.exponent with
  | .ofNat zeros => Nat.toDigits 10 d.digits ++ List.replicate zeros '0'
  | .negSucc places => withPoint (Nat.toDigits 10 d.digits) (places + 1)

/-- The number that a run of digits stands for. -/
def ofDigits (cs : List Char) : Nat := cs.foldl (fun n c => 10 * n + (c.toNat - '0'.toNat)) 0

/-- The decimal that digits with at most one point stand for. -/
def ofChars (cs : List Char) : Decimal :=
  let whole := cs.takeWhile (· != '.')
  let fraction := (cs.dropWhile (· != '.')).drop 1
  ⟨ofDigits (whole ++ fraction), -fraction.length⟩

end Decimal

end Fluxion

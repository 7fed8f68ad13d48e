import Fluxion.Decimal.Shortest

/-!
# Numerals of doubles

The text of a double is its shortest decimal in positional notation, with a minus sign in front of
what is negative, minus zero included. What is no number has the text `NaN`, and the infinities
`inf` and `-inf`. Digits with at most one point are read as the nearest double; `Numeral.read?` also
takes a sign, an exponent and the three words.
-/

namespace Fluxion.Numeral

/-- The double with the given bits, and a minus sign if asked for. -/
def ofBits (negative : Bool) (bits : Nat) : Float :=
  Float.ofBits (UInt64.ofNat (bits + if negative then Binary64.signBit else 0))

/-- The text of the double without a sign that has the given bits. -/
def unsignedText (bits : Nat) : String :=
  if bits = 0 then "0"
  else if bits < Binary64.infinity then String.ofList (Binary64.shortest bits).chars
  else "inf"

/-- The text of a double. -/
def text (x : Float) : String :=
  let bits := x.toBits.toNat
  if x.isNaN then "NaN"
  else if Binary64.signBit ≤ bits then "-" ++ unsignedText (bits - Binary64.signBit)
  else unsignedText bits

/-- The double nearest to the decimal that the digits of a number token stand for. -/
def ofToken (token : String) : Float :=
  ofBits false (Binary64.ofDecimal (Decimal.ofChars token.toList))

/-- A whole number with an optional sign. -/
def readExponent? (cs : List Char) : Option Int :=
  let digits? (cs : List Char) : Option Nat :=
    if cs ≠ [] ∧ cs.all Char.isDigit then some (Decimal.ofDigits cs) else none
  match cs with
  | '-' :: cs => (digits? cs).map fun n => -(n : Int)
  | '+' :: cs => (digits? cs).map fun n => (n : Int)
  | cs => (digits? cs).map fun n => (n : Int)

/-- The bits of the nearest double to digits with at most one point and an optional exponent. -/
def readDecimal? (cs : List Char) : Option Nat :=
  let isMark (c : Char) : Bool := c == 'e' || c == 'E'
  let front := cs.takeWhile fun c => !isMark c
  let well : Bool := front.any Char.isDigit && front.all (fun c => c.isDigit || c == '.') &&
    decide (front.count '.' ≤ 1)
  if well then
    let d := Decimal.ofChars front
    match cs.dropWhile fun c => !isMark c with
    | [] => some (Binary64.ofDecimal d)
    | _ :: exponent => (readExponent? exponent).map fun e =>
        Binary64.ofDecimal ⟨d.digits, d.exponent + e⟩
  else none

/-- The bits, without a sign, of what a text without a sign stands for. -/
def readUnsigned? (cs : List Char) : Option Nat :=
  if cs == "inf".toList then some Binary64.infinity else readDecimal? cs

/-- The double that a text stands for: an optional sign, and digits or `inf`; or `NaN`. -/
def read? (text : String) : Option Float :=
  match text.toList with
  | ['N', 'a', 'N'] => some (Float.ofBits 0x7FF8000000000000)
  | '-' :: cs => (readUnsigned? cs).map (ofBits true)
  | '+' :: cs => (readUnsigned? cs).map (ofBits false)
  | cs => (readUnsigned? cs).map (ofBits false)

end Fluxion.Numeral

import Fluxion.Decimal.Binary64

/-!
# The shortest decimal of a double

Of all decimals that read back as a given double, the one with the fewest digits is chosen, and of
several with that many the nearest to the double; of two equally near the larger. For each count of
digits only the two neighbours of the double on the grid of that count can be nearest, so those are
tried, from one digit to seventeen, which are always enough.
-/

namespace Fluxion.Binary64

/-- Whether the double with the given bits is at least `10 ^ e`. -/
def reaches (bits : Nat) : Int → Bool
  | .ofNat e => unitsOfOne * Decimal.tenTo e ≤ units bits
  | .negSucc e => unitsOfOne ≤ units bits * Decimal.tenTo (e + 1)

/-- The greatest `e` with `10 ^ e` at most the double with the given bits, which is not zero. The
logarithm of the units to base two gives `e` or the number below it. -/
def magnitude (bits : Nat) : Int :=
  let below := ((units bits).log2 - 1074 : Int) * 30103 / 100000
  if reaches bits (below + 1) then below + 1 else below

/-- The two multiples of `10 ^ e` around a double, the nearer first. Halfway between them, the
larger is first. -/
def neighbours (bits : Nat) (e : Int) : List Decimal :=
  let (n, d) := match e with
    | .ofNat e => (units bits, unitsOfOne * Decimal.tenTo e)
    | .negSucc e => (units bits * Decimal.tenTo (e + 1), unitsOfOne)
  let q := n / d
  if 2 * (n % d) < d then [⟨q, e⟩, ⟨q + 1, e⟩] else [⟨q + 1, e⟩, ⟨q, e⟩]

/-- The first decimal to read back as the double, those with fewer digits tried first. -/
def shortest? (bits : Nat) : Option Decimal :=
  let top := magnitude bits
  (List.range 17).findSome? fun (count : Nat) =>
    (neighbours bits (top - count)).find? fun d => ofDecimal d == bits

/-- The exact value of a double: a unit is `5 ^ 1074 / 10 ^ 1074`. -/
def exact (bits : Nat) : Decimal := ⟨units bits * Nat.pow 5 1074, -1074⟩

/-- The shortest decimal that reads back as the double with the given bits, without zeros at its
end. -/
def shortest (bits : Nat) : Decimal :=
  ((shortest? bits).getD (exact bits)).strip

end Fluxion.Binary64

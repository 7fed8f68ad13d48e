/-!
# Edit distance

The least number of characters to insert, delete or replace that turns one text into another,
computed row by row: entry `j` of the row for a prefix of the first text is the distance from that
prefix to the first `j` characters of the second.
-/

namespace Fluxion.Text

/-- The entries of a row after its first, for one more character `a` of the first text. `left` is
the entry just found, `corner` the entry of the previous row before the ones in `above`. -/
def distanceEntries (a : Char) (corner left : Nat) : List Char → List Nat → List Nat
  | b :: bs, up :: above =>
    let entry := min (min (left + 1) (up + 1)) (corner + if a = b then 0 else 1)
    entry :: distanceEntries a up entry bs above
  | _, _ => []

/-- The row after `row`, for one more character `a` of the first text. -/
def distanceRow (bs : List Char) (row : List Nat) (a : Char) : List Nat :=
  match row with
  | [] => []
  | corner :: above => (corner + 1) :: distanceEntries a corner (corner + 1) bs above

/-- The edit distance of two texts. -/
def editDistance (as bs : List Char) : Nat :=
  ((as.foldl (distanceRow bs) (List.range (bs.length + 1))).getLast?).getD 0

end Fluxion.Text

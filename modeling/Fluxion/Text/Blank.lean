/-!
# White space in text

The characters with the Unicode property `White_Space`, and what is cut at them: the text without
them at either end, and the words between them.
-/

namespace Fluxion.Text

/-- The ranges of code points with the property `White_Space`, both ends included. -/
def whiteSpaceRanges : List (Nat × Nat) :=
  [(0x0009, 0x000D), (0x0020, 0x0020), (0x0085, 0x0085), (0x00A0, 0x00A0), (0x1680, 0x1680),
    (0x2000, 0x200A), (0x2028, 0x2029), (0x202F, 0x202F), (0x205F, 0x205F), (0x3000, 0x3000)]

/-- A character with the property `White_Space`. -/
def isWhite (c : Char) : Bool :=
  whiteSpaceRanges.any fun range => decide (range.1 ≤ c.toNat) && decide (c.toNat ≤ range.2)

/-- The text without white space at its end. -/
def trimEnd (cs : List Char) : List Char := (cs.reverse.dropWhile isWhite).reverse

/-- The text without white space at either end. -/
def trim (cs : List Char) : List Char := trimEnd (cs.dropWhile isWhite)

/-- A line without the line break at its end. -/
def withoutLineBreak (line : List Char) : List Char :=
  match line.reverse with
  | '\n' :: '\r' :: cs => cs.reverse
  | '\n' :: cs => cs.reverse
  | _ => line

/-- The longest stretches without white space, in order. -/
def words (cs : List Char) : List (List Char) :=
  match _h : cs.dropWhile isWhite with
  | [] => []
  | c :: rest =>
    (c :: rest.takeWhile fun c => !isWhite c) :: words (rest.dropWhile fun c => !isWhite c)
termination_by cs.length
decreasing_by
  have whole : (cs.dropWhile isWhite).length ≤ cs.length :=
    (List.dropWhile_sublist isWhite).length_le
  have part : (rest.dropWhile fun c => !isWhite c).length ≤ rest.length :=
    (List.dropWhile_sublist _).length_le
  rw [_h] at whole
  simp only [List.length_cons] at whole
  omega

end Fluxion.Text

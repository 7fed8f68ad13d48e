import Fluxion.Token.Basic

/-!
# From text to tokens

`Token.lex` cuts a text into tokens from left to right, each the longest that its first
character allows: a run of blanks, a word, a number, or a single character. Nothing is skipped, so
the texts of the tokens, put together, are the text again. A fraction belongs to a number only if
a digit follows the point: `3.` is a number and then a symbol.
-/

namespace Fluxion

/-- The characters that separate tokens: space, tab, line feed, carriage return. -/
def isBlankChar (c : Char) : Bool := c == ' ' || c == '\t' || c == '\n' || c == '\r'

/-- A class and the characters cut for it, with the characters that follow. -/
structure Cut where
  kind : Kind
  lexeme : List Char
  rest : List Char

namespace Cut

/-- The class of a word: a keyword if it is spelled like one, else a name. -/
def wordKind (word : List Char) : Kind :=
  match Keyword.ofText? (String.ofList word) with
  | some keyword => .keyword keyword
  | none => .name

/-- The longest token of characters that satisfy `p`, after a first character that starts it. -/
def run (kind : List Char → Kind) (p : Char → Bool) (c : Char) (cs : List Char) : Cut :=
  ⟨kind (c :: cs.takeWhile p), c :: cs.takeWhile p, cs.dropWhile p⟩

/-- Digits, and if a point and a digit follow, the point and the digits after it. -/
def number (c : Char) (cs : List Char) : Cut :=
  let whole := run (fun _ => .integer) Char.isDigit c cs
  match whole.rest with
  | '.' :: d :: more =>
    if d.isDigit then
      let fraction := run (fun _ => .decimal) Char.isDigit d more
      ⟨.decimal, whole.lexeme ++ '.' :: fraction.lexeme, fraction.rest⟩
    else whole
  | _ => whole

/-- The class of a character that starts no longer token. -/
def singleKind (c : Char) : Kind :=
  match Punct.ofChar? c with
  | some mark => .punct mark
  | none => .symbol

/-- The longest token at the head of `c :: cs`. -/
def ofChars (c : Char) (cs : List Char) : Cut :=
  if isBlankChar c then run (fun _ => .blank) isBlankChar c cs
  else if c.isAlpha then run wordKind Char.isAlphanum c cs
  else if c.isDigit then number c cs
  else ⟨singleKind c, [c], cs⟩

theorem length_dropWhile_le (p : Char → Bool) (cs : List Char) :
    (cs.dropWhile p).length ≤ cs.length :=
  (List.dropWhile_sublist p).length_le

/-- What is left behind a number is no longer than before, so lexing comes to an end. -/
theorem number_rest_length_le (c : Char) (cs : List Char) :
    (number c cs).rest.length ≤ cs.length := by
  have whole : (cs.dropWhile Char.isDigit).length ≤ cs.length := length_dropWhile_le _ _
  simp only [number, run]
  split
  · next d more tail =>
    have fraction : (more.dropWhile Char.isDigit).length ≤ more.length := length_dropWhile_le _ _
    rw [tail] at whole
    simp only [List.length_cons] at whole
    split
    · simp only
      omega
    · simp_all
  · exact whole

/-- A token takes at least its first character. -/
theorem ofChars_rest_length_le (c : Char) (cs : List Char) :
    (ofChars c cs).rest.length ≤ cs.length := by
  unfold ofChars
  split
  · exact length_dropWhile_le _ _
  split
  · exact length_dropWhile_le _ _
  split
  · exact number_rest_length_le c cs
  · exact Nat.le_refl _

end Cut

namespace Token

/-- The tokens of a text whose first character stands at byte `start`. -/
def lexFrom (start : Nat) : List Char → List Token
  | [] => []
  | c :: cs =>
    let cut := Cut.ofChars c cs
    let token : Token := ⟨cut.kind, String.ofList cut.lexeme, start⟩
    token :: lexFrom token.stop cut.rest
termination_by cs => cs.length
decreasing_by exact Nat.lt_succ_of_le (Cut.ofChars_rest_length_le c cs)

/-- The tokens of a text, blanks included, in order. -/
def lex (text : String) : List Token := lexFrom 0 text.toList

/-- The tokens of a text that are not blank. -/
def significant (text : String) : List Token := (lex text).filter fun token => !token.isBlank

end Token

end Fluxion

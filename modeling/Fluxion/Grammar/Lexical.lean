import Fluxion.Grammar.Parser
import Fluxion.Scalar

/-!
# Single tokens, numbers and names

The productions that read one token, or a number with the minus sign that may stand in front of it.
-/

namespace Fluxion.Grammar

open Fluxion.Parser

/-- A token of a given class. -/
def ofKind (expected : Expectation) (kind : Kind) : Parser Token :=
  satisfy expected fun token => if token.kind = kind then some token else none

/-- A punctuation mark. -/
def punct (mark : Punct) : Parser Token := ofKind (.punct mark) (.punct mark)

/-- A keyword. -/
def keyword (word : Keyword) : Parser Token := ofKind (.keyword word) (.keyword word)

/-- A name of any length. -/
def word : Parser Token := ofKind .identifier .name

/-- Digits without a fraction. -/
def integer : Parser Token := ofKind .integer .integer

/-- Digits with a fraction. -/
def decimal : Parser Token := ofKind .number .decimal

/-- A name that is not too long. -/
def identifier : Parser Token := do
  let name ← attempt word
  if maxNameBytes < name.text.utf8ByteSize then abort (.nameTooLong name) else return name

/-- A number and its place in the text. -/
structure Number (α : Type) where
  value : α
  span : Span

/-- The number of a digit token with the minus sign in front of it, if there is one. -/
def Number.ofToken {α : Type} [Literal α] (minus : Option Token) (token : Token) : Number α :=
  match minus with
  | none => ⟨Literal.ofDigits token.text, token.span⟩
  | some sign => ⟨Literal.negate (Literal.ofDigits token.text), ⟨sign.start, token.stop⟩⟩

/-- Digits, with a minus sign perhaps, which has to end where they start. -/
def number {α : Type} [Literal α] : Parser (Number α) := do
  let minus ← optional (punct .minus)
  satisfy .number fun token =>
    if token.isNumber && minus.all fun sign => sign.stop == token.start then
      some (Number.ofToken minus token)
    else none

end Fluxion.Grammar

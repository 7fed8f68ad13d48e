import Fluxion.Token.Basic

/-!
# Why text is refused

Reading meets a failure where a token is not what a production requires. Failures are collected
even where another alternative then succeeds, since of all failures the one furthest in the text
points at the mistake; of several as far, the one met last. An identifier that is too long is an
error of another kind: it ends reading at once and is no failure in that collection.
-/

namespace Fluxion

/-- What a production requires. -/
inductive Expectation where
  | punct (mark : Punct)
  | keyword (word : Keyword)
  | identifier
  | integer
  | number
  | comparison
  | additive
  | multiplicative
  | expression
  deriving DecidableEq

/-- The words for what is required. -/
def Expectation.text : Expectation → String
  | punct .dollar => "the end of the input `$`"
  | punct mark => "`" ++ String.singleton mark.char ++ "`"
  | keyword word => "keyword `" ++ word.text ++ "`"
  | identifier => "an identifier"
  | integer => "an integer"
  | number => "a number"
  | comparison => "a comparison"
  | additive => "`+` or `-`"
  | multiplicative => "`*` or `/`"
  | expression => "an expression"

/-- A stretch of text by the byte offsets of its ends. -/
structure Span where
  start : Nat
  stop : Nat
  deriving DecidableEq

/-- The stretch of text of a token. -/
def Token.span (token : Token) : Span := ⟨token.start, token.stop⟩

/-- A requirement and the token found in its place, or nothing where the tokens have run out. -/
structure Failure where
  expected : Expectation
  found : Option Token
  deriving DecidableEq

namespace Failure

/-- The text found, unless that is the end: the tokens have run out, or the end mark is met. -/
def foundText? (f : Failure) : Option String :=
  match f.found with
  | none => none
  | some token => if token.kind = .punct .dollar then none else some token.text

/-- Where the failure is, in a text that ends at byte `stop`. -/
def span (stop : Nat) (f : Failure) : Span :=
  match f.found with
  | none => ⟨stop, stop⟩
  | some token => token.span

/-- The byte offset of the failure in a text that ends at byte `stop`. -/
def position (stop : Nat) (f : Failure) : Nat := (f.span stop).start

/-- Of failures in the order in which they were met, the last first: the furthest, and of several as
far the one met last. -/
def furthest? (stop : Nat) : List Failure → Option Failure
  | [] => none
  | f :: earlier =>
    match furthest? stop earlier with
    | none => some f
    | some g => if g.position stop ≤ f.position stop then some f else some g

end Failure

/-- The greatest number of bytes in an identifier. -/
def maxNameBytes : Nat := 15

/-- Why a text is refused. -/
inductive SyntaxError where
  | unexpected (failure : Failure)
  /-- An identifier of more than `maxNameBytes` bytes. -/
  | nameTooLong (name : Token)
  deriving DecidableEq

namespace SyntaxError

/-- An error that no other alternative is tried after. -/
def isFatal : SyntaxError → Bool
  | unexpected _ => false
  | nameTooLong _ => true

/-- Where the error is, in a text that ends at byte `stop`. -/
def span (stop : Nat) : SyntaxError → Span
  | unexpected f => f.span stop
  | nameTooLong name => name.span

/-- What is wrong. -/
def message : SyntaxError → String
  | unexpected f =>
    match f.foundText? with
    | none => "unexpected end of input"
    | some text => "unexpected `" ++ text ++ "`"
  | nameTooLong _ => "identifier is too long"

/-- What stands at the place of the error. -/
def label : SyntaxError → String
  | unexpected f => "I expected to see " ++ f.expected.text ++ " here"
  | nameTooLong name =>
    "this identifier is " ++ toString name.text.utf8ByteSize ++ " bytes long"

/-- What may help, if anything. -/
def help? : SyntaxError → Option String
  | unexpected f =>
    match f.foundText? with
    | none => some "the input ends at the first `$`; anything after it is ignored"
    | some _ => none
  | nameTooLong _ =>
    some ("identifiers can be at most " ++ toString maxNameBytes ++ " bytes long")

end SyntaxError

/-- An error and its place in the text. -/
structure SourceError where
  cause : SyntaxError
  span : Span
  deriving DecidableEq

end Fluxion

import Fluxion.Grammar.Statement
import Fluxion.Token.Lexer
import Fluxion.Text.Blank

/-!
# Reading a text

A reading holds the tokens of a text that are not blank, those still to be read, and the failures
met since it started. A complete reading starts anew and requires the end mark `$` after what it
reads; what follows the first `$` is never looked at. If it fails, its error is the furthest
failure, which is then forgotten.
-/

namespace Fluxion

open Grammar

/-- A text with an end mark added, unless it ends in one but for white space. -/
def withSentinel (text : String) : String :=
  if (Text.trimEnd text.toList).getLast? = some '$' then text else text ++ "$"

/-- A text on the way of being read. -/
structure Reading where
  /-- Every token of the text that is not blank. -/
  tokens : List Token
  /-- The byte offset of the end of the text. -/
  stop : Nat
  /-- The tokens still to be read. -/
  rest : List Token
  /-- The failures met, the last first. -/
  failures : List Failure

namespace Reading

variable {α β : Type}

/-- A text of which nothing has been read. -/
def start (text : String) : Reading :=
  ⟨Token.significant text, text.utf8ByteSize, Token.significant text, []⟩

/-- The next token, if there is one. -/
def peek? (r : Reading) : Option Token := r.rest.head?

/-- The next token, if there is one, and the reading after it. -/
def next (r : Reading) : Option Token × Reading := (r.peek?, { r with rest := r.rest.tail })

/-- The empty stretch at the end of the text. -/
def endSpan (r : Reading) : Span := ⟨r.stop, r.stop⟩

/-- The stretch of the next token, or the end of the text. -/
def span (r : Reading) : Span := r.peek?.elim r.endSpan Token.span

/-- The furthest failure so far. -/
def furthest? (r : Reading) : Option Failure := Failure.furthest? r.stop r.failures

/-- Reads what a parser reads. -/
def run (p : Parser β) (r : Reading) : Except SyntaxError β × Reading :=
  let o := p r.rest
  (o.result, { r with rest := o.rest, failures := o.failures ++ r.failures })

/-- What a parser reads from the start, with the end mark after it. -/
def toEnd (p : Parser β) : Parser β := do
  let b ← p
  let _ ← Parser.attempt (punct .dollar)
  return b

/-- Reads the whole text, from its start. -/
def complete (p : Parser β) (r : Reading) : Except SyntaxError β × Reading :=
  let o := Parser.attempt (toEnd p) r.tokens
  match o.result with
  | .error (.unexpected f) =>
    (.error (.unexpected ((Failure.furthest? r.stop o.failures).getD f)),
      { r with rest := o.rest, failures := [] })
  | result => (result, { r with rest := o.rest, failures := o.failures })

end Reading

/-- What a whole text can be read as. -/
inductive Entry where
  | expression
  | statements
  | program
  deriving DecidableEq

namespace Entry

variable {α : Type} [Literal α]

/-- The production of an entry. -/
def production : Entry → Parser (Tree α)
  | expression => Grammar.expression
  | statements => Grammar.sequence
  | program => Grammar.program

/-- The tree of a text that ends in `$`. -/
def parse (entry : Entry) (text : String) : Except SourceError (Tree α) :=
  match ((Reading.start text).complete entry.production).1 with
  | .ok t => .ok t
  | .error e => .error ⟨e, e.span text.utf8ByteSize⟩

end Entry

end Fluxion

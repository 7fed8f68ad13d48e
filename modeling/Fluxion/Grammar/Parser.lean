import Fluxion.Grammar.Failure

/-!
# Parsers

A parser reads a value from the front of a list of tokens. Its outcome is the value or an error,
the tokens left, and every failure met on the way. The outcome depends on the tokens alone, not on
what was read before them, and a parser that is done after another adds its failures to those of
the other.

Alternatives and repetitions try a parser and, if it fails, go on from where it started; only an
error that is fatal ends them. A parser that calls itself on fewer tokens than it was given is
tied together by `Parser.fix`.
-/

namespace Fluxion

/-- What a parser makes of a list of tokens. The failures are in the order in which they were met,
the last first. -/
structure Outcome (β : Type) where
  result : Except SyntaxError β
  rest : List Token
  failures : List Failure

/-- A function that reads a value from the front of a list of tokens. -/
def Parser (β : Type) := List Token → Outcome β

namespace Outcome

variable {β γ : Type}

/-- The outcome with failures that were met before it. -/
def after (earlier : List Failure) (o : Outcome β) : Outcome β :=
  ⟨o.result, o.rest, o.failures ++ earlier⟩

end Outcome

namespace Parser

variable {β γ δ : Type}

/-- Reads nothing and yields a value. -/
def succeed (b : β) : Parser β := fun tokens => ⟨.ok b, tokens, []⟩

/-- Reads a value, then goes on as that value says. -/
def andThen (p : Parser β) (f : β → Parser γ) : Parser γ := fun tokens =>
  match p tokens with
  | ⟨.ok b, rest, failures⟩ => (f b rest).after failures
  | ⟨.error e, rest, failures⟩ => ⟨.error e, rest, failures⟩

instance : Monad Parser where
  pure := succeed
  bind := andThen

/-- The outcome of a failure that leaves the given tokens. -/
def failing (expected : Expectation) (found : Option Token) (rest : List Token) : Outcome β :=
  ⟨.error (.unexpected ⟨expected, found⟩), rest, [⟨expected, found⟩]⟩

/-- Reads nothing and fails at the next token. -/
def refuse (expected : Expectation) : Parser β := fun tokens =>
  failing expected tokens.head? tokens

/-- Reads nothing and ends all reading with an error. -/
def abort (e : SyntaxError) : Parser β := fun tokens => ⟨.error e, tokens, []⟩

/-- Reads one token that is accepted, and yields what it is accepted as. A token that is not
accepted is left behind too. -/
def satisfy (expected : Expectation) (accept : Token → Option β) : Parser β
  | [] => failing expected none []
  | token :: rest =>
    match accept token with
    | some b => ⟨.ok b, rest, []⟩
    | none => failing expected (some token) rest

/-- Reads a value, or fails without reading anything. -/
def attempt (p : Parser β) : Parser β := fun tokens =>
  match p tokens with
  | ⟨.ok b, rest, failures⟩ => ⟨.ok b, rest, failures⟩
  | ⟨.error e, _, failures⟩ => ⟨.error e, tokens, failures⟩

/-- Reads a value if there is one, and nothing otherwise. -/
def optional (p : Parser β) : Parser (Option β) := fun tokens =>
  match p tokens with
  | ⟨.ok b, rest, failures⟩ => ⟨.ok (some b), rest, failures⟩
  | ⟨.error e, _, failures⟩ => ⟨if e.isFatal then .error e else .ok none, tokens, failures⟩

/-- Reads what the first parser reads, or failing that what the second does. -/
def orElse (p q : Parser β) : Parser β := fun tokens =>
  match p tokens with
  | ⟨.ok b, rest, failures⟩ => ⟨.ok b, rest, failures⟩
  | ⟨.error e, _, failures⟩ =>
    if e.isFatal then ⟨.error e, tokens, failures⟩ else (q tokens).after failures

/-- Reads as many values as there are. A value that takes no token is the last. -/
def many (p : Parser β) : Parser (List β) := fun tokens =>
  match optional p tokens with
  | ⟨.ok (some b), rest, failures⟩ =>
    if rest.length < tokens.length then
      let others := many p rest
      ⟨others.result.map (b :: ·), others.rest, others.failures ++ failures⟩
    else ⟨.ok [b], rest, failures⟩
  | ⟨.ok none, rest, failures⟩ => ⟨.ok [], rest, failures⟩
  | ⟨.error e, rest, failures⟩ => ⟨.error e, rest, failures⟩
termination_by tokens => tokens.length

/-- Reads values with a separator between any two. A separator without a value after it is left. -/
def separated (separator : Parser γ) (p : Parser β) : Parser (List β) := do
  match ← optional p with
  | none => return []
  | some b =>
    let others ← many do
      let _ ← attempt separator
      p
    return b :: others

/-- The parser that may call itself on every list of fewer tokens than it is given. -/
def fix (body : Parser β → Parser β) : Parser β := fun tokens =>
  body (fun fewer =>
    if fewer.length < tokens.length then fix body fewer
    else failing .expression fewer.head? fewer) tokens
termination_by tokens => tokens.length

end Parser

end Fluxion

import Fluxion.Proofs.Grammar.Records

/-!
# The productions as code

A parser is a function, and does not show what it calls. Here the productions are written once more
as code (`Code.body`), a tree of the ways in which parsers are put together, with the productions
that are called as leaves. The code says nothing of how a call ends, and there is no bound in it:
nothing keeps a production from calling itself on the same tokens, or a loop from going on forever.
That neither happens is to be shown of it.

The code of a production means the parser of that production (`Code.parser_body`).
-/

namespace Fluxion.Grammar

/-- What a parser is put together from, with the productions that it calls. -/
inductive Code (α : Type) : Type → Type 1 where
  | pure {β : Type} (b : β) : Code α β
  | refuse {β : Type} (expected : Expectation) : Code α β
  | abort {β : Type} (name : Token) : Code α β
  | satisfy {β : Type} (expected : Expectation) (accept : Token → Option β) : Code α β
  | bind {β γ : Type} (c : Code α β) (f : β → Code α γ) : Code α γ
  | attempt {β : Type} (c : Code α β) : Code α β
  | optional {β : Type} (c : Code α β) : Code α (Option β)
  | orElse {β : Type} (c d : Code α β) : Code α β
  | many {β : Type} (c : Code α β) : Code α (List β)
  | call (g : Production) : Code α (Tree α)

namespace Code

variable {α β γ : Type}

instance : Monad (Code α) where
  pure := Code.pure
  bind := Code.bind

/-- The parser that the code is of, if those of the productions are given. -/
def parser (meaning : Production → Parser (Tree α)) : {β : Type} → Code α β → Parser β
  | _, .pure b => Pure.pure b
  | _, .refuse expected => Parser.refuse expected
  | _, .abort name => Parser.abort (.nameTooLong name)
  | _, .satisfy expected accept => Parser.satisfy expected accept
  | _, .bind c f => c.parser meaning >>= fun b => (f b).parser meaning
  | _, .attempt c => Parser.attempt (c.parser meaning)
  | _, .optional c => Parser.optional (c.parser meaning)
  | _, .orElse c d => Parser.orElse (c.parser meaning) (d.parser meaning)
  | _, .many c => Parser.many (c.parser meaning)
  | _, .call g => meaning g

/-! ## Single tokens -/

/-- A punctuation mark. -/
def punct (mark : Punct) : Code α Token :=
  satisfy (.punct mark) fun token => if token.kind = .punct mark then some token else none

/-- A keyword. -/
def keyword (word : Keyword) : Code α Token :=
  satisfy (.keyword word) fun token => if token.kind = .keyword word then some token else none

/-- A name that is not too long. -/
def identifier : Code α Token := do
  let name ← attempt (satisfy .identifier fun token =>
    if token.kind = .name then some token else none)
  if maxNameBytes < name.text.utf8ByteSize then abort name else return name

/-- Digits, with a minus sign perhaps. -/
def number [Literal α] : Code α (Number α) := do
  let minus ← optional (punct .minus)
  satisfy .number fun token =>
    if token.isNumber && minus.all fun sign => sign.stop == token.start then
      some (Number.ofToken minus token)
    else none

/-! ## Phrases -/

/-- An operator and an operand after it. -/
def operation (expected : Expectation) (op? : Token → Option NaryOp) (operand : Code α (Tree α)) :
    Code α (NaryOp × Tree α) := do
  let op ← satisfy expected op?
  let t ← operand
  return (op, t)

/-- Operands with operators between them. -/
def chain (expected : Expectation) (op? : Token → Option NaryOp) (operand : Code α (Tree α)) :
    Code α (Tree α) := do
  let first ← attempt operand
  let others ← many (operation expected op? operand)
  return grouped first others

/-- A comma and an item after it. -/
def afterComma (c : Code α β) : Code α β := do
  let _ ← attempt (punct .comma)
  c

/-- Items with commas between them. -/
def separated (c : Code α β) : Code α (List β) := do
  match ← optional c with
  | none => return []
  | some b =>
    let others ← many (afterComma c)
    return b :: others

/-- An expression in parentheses. -/
def parenthesized : Code α (Tree α) := do
  let _ ← attempt (punct .openParen)
  let t ← call .expression
  let _ ← attempt (punct .closeParen)
  return t

/-- What some code reads, and a semicolon. -/
def closed (c : Code α (Tree α)) : Code α (Tree α) := do
  let t ← c
  let _ ← attempt (punct .semicolon)
  return t

/-! ## The productions -/

/-- The code of a production. -/
def body [Literal α] : Production → Code α (Tree α)
  | .expression => do
    let left ← attempt (call .sum)
    let right ← optional do
      let r ← satisfy .comparison relation?
      let t ← call .sum
      return (r, t)
    match right with
    | none => return left
    | some (r, t) => return .node (.relation r) [left, t]
  | .sum => chain .additive additive? (call .product)
  | .product => chain .multiplicative multiplicative? (call .power)
  | .power => do
    let base ← attempt (call .part)
    let exponent ← optional do
      let _ ← attempt (punct .caret)
      call .part
    match exponent with
    | none => return base
    | some exponent => return .node (.nary .pow) [base, exponent]
  | .part =>
    orElse parenthesized <|
    orElse (call .assignment) <|
    orElse (do let n ← number; return .num n.value) <|
    orElse (call .call) <|
    orElse (do let name ← identifier; return .var name.text) <|
    refuse .expression
  | .assignment => do
    let target ← attempt identifier
    let _ ← attempt (punct .equals)
    let t ← call .expression
    return .node .assign [.var target.text, t]
  | .call => do
    let name ← attempt identifier
    let _ ← attempt (punct .openParen)
    let arguments ← separated (call .expression)
    let _ ← attempt (punct .closeParen)
    return .node (callOperator name.text arguments) arguments
  | .statement =>
    orElse (call .ifStatement) <|
    orElse (call .whileStatement) <|
    orElse (closed (call .returning)) <|
    orElse (call .forStatement) <|
    attempt (closed (call .expression))
  | .sequence => do
    let ts ← many (call .statement)
    return .node .sequence ts
  | .block => do
    let _ ← attempt (punct .openCurly)
    let ts ← call .sequence
    let _ ← attempt (punct .closeCurly)
    return ts
  | .ifStatement => do
    let _ ← attempt (keyword .ifKw)
    let c ← parenthesized
    let yes ← call .block
    let no ← optional do
      let _ ← attempt (keyword .elseKw)
      call .block
    return .node .ifElse (c :: yes :: no.toList)
  | .whileStatement => do
    let _ ← attempt (keyword .whileKw)
    let c ← call .expression
    let ts ← call .block
    return .node .whileLoop [c, ts]
  | .forStatement => do
    let _ ← attempt (keyword .forKw)
    let _ ← attempt (punct .openParen)
    let first ← call .expression
    let _ ← attempt (punct .semicolon)
    let c ← call .expression
    let _ ← attempt (punct .semicolon)
    let step ← call .expression
    let _ ← attempt (punct .closeParen)
    let ts ← call .block
    return .node .forLoop [first, c, step, ts]
  | .returning => do
    let _ ← attempt (keyword .returnKw)
    let value ← parenthesized
    return .node .giveBack [value]
  | .definition => do
    let _ ← attempt (keyword .functionKw)
    let name ← attempt identifier
    let _ ← attempt (punct .openParen)
    let parameters ← separated (attempt identifier)
    let _ ← attempt (punct .closeParen)
    let ts ← call .block
    return .node (.define name.text) (parameters.map (fun p => .var p.text) ++ [ts])
  | .program => do
    let ts ← many (call .definition)
    return .node .sequence ts

/-! ## What the code means -/

section Meaning

variable {meaning : Production → Parser (Tree α)}

/-- What follows is compared value by value. -/
theorem parser_bind {c : Code α β} {f : β → Code α γ} {p : Parser β} {f' : β → Parser γ}
    (hc : c.parser meaning = p) (hf : ∀ b, (f b).parser meaning = f' b) :
    (c >>= f).parser meaning = p >>= f' := by
  rw [← hc, ← funext hf]
  rfl

/-- What code that tries another means is told by what the other means. -/
theorem parser_attempt {c : Code α β} {p : Parser β} (hc : c.parser meaning = p) :
    (attempt c).parser meaning = Parser.attempt p :=
  congrArg Parser.attempt hc

theorem parser_orElse {c d : Code α β} {p q : Parser β} (hc : c.parser meaning = p)
    (hd : d.parser meaning = q) : (orElse c d).parser meaning = Parser.orElse p q :=
  congrArg₂ Parser.orElse hc hd

/-- The code for a name means the parser for it, the test of its length included. -/
theorem parser_identifier : (identifier : Code α Token).parser meaning = Grammar.identifier := by
  refine parser_bind rfl fun name => ?_
  split <;> rfl

/-- Values with commas are a loop, each turn of which reads a comma first. -/
theorem parser_separated {c : Code α β} {p : Parser β} (hc : c.parser meaning = p) :
    (separated c).parser meaning = Parser.separated (Grammar.punct .comma) p := by
  subst hc
  refine parser_bind rfl fun found => ?_
  cases found <;> rfl

end Meaning

/-- The code of a production means its parser. -/
theorem parser_body [Literal α] (g : Production) :
    (body g).parser Production.parser = (g.parser : Parser (Tree α)) := by
  -- of each production the description of the body is its text, up to the order of binds
  cases g with
  | sum | product | sequence | block | ifStatement | whileStatement | forStatement | returning
  | program => rfl
  | expression =>
    refine Eq.trans ?_ expression_eq.symm
    refine parser_bind rfl fun left => parser_bind rfl fun right => ?_
    rcases right with _ | ⟨r, t⟩ <;> rfl
  | power =>
    refine parser_bind rfl fun base => parser_bind rfl fun exponent => ?_
    cases exponent <;> rfl
  | part =>
    refine parser_orElse rfl (parser_orElse rfl (parser_orElse rfl (parser_orElse rfl ?_)))
    exact parser_orElse (parser_bind parser_identifier fun _ => rfl) rfl
  | assignment => exact parser_bind (parser_attempt parser_identifier) fun _ => rfl
  | call =>
    refine parser_bind (parser_attempt parser_identifier) fun name => parser_bind rfl fun _ => ?_
    exact parser_bind (parser_separated rfl) fun _ => rfl
  | statement => exact statement_eq.symm
  | definition =>
    refine parser_bind rfl fun _ => parser_bind (parser_attempt parser_identifier) fun name => ?_
    refine parser_bind rfl fun _ => parser_bind ?_ fun _ => rfl
    exact parser_separated (parser_attempt parser_identifier)

end Code

end Fluxion.Grammar

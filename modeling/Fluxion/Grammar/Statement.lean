import Fluxion.Grammar.Expression

/-!
# Statements and programs

```
program    := definition*
definition := "function" name "(" (name ("," name)*)? ")" block
block      := "{" sequence "}"
sequence   := statement*
statement  := if | while | return ";" | for | expression ";"
if         := "if" "(" expression ")" block ("else" block)?
while      := "while" expression block
return     := "return" "(" expression ")"
for        := "for" "(" expression ";" expression ";" expression ")" block
```
-/

namespace Fluxion.Grammar

open Fluxion.Parser

variable {α : Type} [Literal α]

/-- Statements, as many as there are. -/
def sequenceOf (statement : Parser (Tree α)) : Parser (Tree α) := do
  let ts ← many statement
  return .node .sequence ts

/-- Statements in braces. -/
def blockOf (statement : Parser (Tree α)) : Parser (Tree α) := do
  let _ ← attempt (punct .openCurly)
  let body ← sequenceOf statement
  let _ ← attempt (punct .closeCurly)
  return body

/-- An expression in parentheses, as a condition or a value returned. -/
def condition : Parser (Tree α) := parenthesizedOf expression

/-- What is done if a condition holds, and perhaps what is done if not. -/
def ifOf (statement : Parser (Tree α)) : Parser (Tree α) := do
  let _ ← attempt (keyword .ifKw)
  let c ← condition
  let yes ← blockOf statement
  let no ← optional do
    let _ ← attempt (keyword .elseKw)
    blockOf statement
  return .node .ifElse (c :: yes :: no.toList)

/-- What is repeated while a condition holds. -/
def whileOf (statement : Parser (Tree α)) : Parser (Tree α) := do
  let _ ← attempt (keyword .whileKw)
  let c ← expression
  let body ← blockOf statement
  return .node .whileLoop [c, body]

/-- What is repeated with a first step, a condition and a step between two rounds. -/
def forOf (statement : Parser (Tree α)) : Parser (Tree α) := do
  let _ ← attempt (keyword .forKw)
  let _ ← attempt (punct .openParen)
  let first ← expression
  let _ ← attempt (punct .semicolon)
  let c ← expression
  let _ ← attempt (punct .semicolon)
  let step ← expression
  let _ ← attempt (punct .closeParen)
  let body ← blockOf statement
  return .node .forLoop [first, c, step, body]

/-- The value that a function returns. -/
def returning : Parser (Tree α) := do
  let _ ← attempt (keyword .returnKw)
  let value ← condition
  return .node .giveBack [value]

/-- What a parser reads, and a semicolon. -/
def closed (p : Parser (Tree α)) : Parser (Tree α) := do
  let t ← p
  let _ ← attempt (punct .semicolon)
  return t

/-- A statement. -/
def statementOf (statement : Parser (Tree α)) : Parser (Tree α) :=
  orElse (ifOf statement) <|
  orElse (whileOf statement) <|
  orElse (closed returning) <|
  orElse (forOf statement) <|
  attempt (closed expression)

/-- A statement. -/
def statement : Parser (Tree α) := fix statementOf

/-- Statements, as many as there are. -/
def sequence : Parser (Tree α) := sequenceOf statement

/-- Statements in braces. -/
def block : Parser (Tree α) := blockOf statement

/-- An `if` statement. -/
def ifStatement : Parser (Tree α) := ifOf statement

/-- A `while` statement. -/
def whileStatement : Parser (Tree α) := whileOf statement

/-- A `for` statement. -/
def forStatement : Parser (Tree α) := forOf statement

/-- The definition of a function. -/
def definition : Parser (Tree α) := do
  let _ ← attempt (keyword .functionKw)
  let name ← attempt identifier
  let _ ← attempt (punct .openParen)
  let parameters ← separated (punct .comma) (attempt identifier)
  let _ ← attempt (punct .closeParen)
  let body ← block
  return .node (.define name.text) (parameters.map (fun p => .var p.text) ++ [body])

/-- Definitions, as many as there are. -/
def program : Parser (Tree α) := do
  let ts ← many definition
  return .node .sequence ts

end Fluxion.Grammar

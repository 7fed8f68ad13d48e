import Fluxion.Tree.Basic
import Fluxion.Grammar.Lexical

/-!
# Expressions

```
expression := sum (("<" | ">" | "~") sum)?
sum        := product (("+" | "-") product)*
product    := power (("*" | "/") power)*
power      := part ("^" part)?
part       := "(" expression ")" | assignment | number | call | name
assignment := name "=" expression
call       := name "(" (expression ("," expression)*)? ")"
```

A run of one operator makes one node, and another operator wraps what was read so far: `a - b - c`
has three operands, and `a + b - c` is the difference of a sum and `c`. Each production is given the
one for expressions that it calls, which is at last tied to itself: it is called only after a token
was read.
-/

namespace Fluxion

/-- The mark that a comparison is written with. -/
def Relation.mark : Relation → Punct
  | more => .greater
  | less => .less
  | equal => .tilde

/-- The mark that an operator is written with. -/
def NaryOp.mark : NaryOp → Punct
  | add => .plus
  | sub => .minus
  | mul => .star
  | div => .slash
  | pow => .caret

end Fluxion

namespace Fluxion.Grammar

open Fluxion.Parser

variable {α : Type}

/-- The one among some operators whose mark a token is. -/
def marked? {β : Type} (mark : β → Punct) (operators : List β) (token : Token) : Option β :=
  operators.find? fun op => token.kind = .punct (mark op)

/-- The comparison that a token stands for. -/
def relation? : Token → Option Relation := marked? Relation.mark [.less, .more, .equal]

/-- The operator between terms that a token stands for. -/
def additive? : Token → Option NaryOp := marked? NaryOp.mark [.add, .sub]

/-- The operator between factors that a token stands for. -/
def multiplicative? : Token → Option NaryOp := marked? NaryOp.mark [.mul, .div]

/-- The operands read so far under one operator, with the operators and operands that follow. -/
def extend (op : NaryOp) (operands : List (Tree α)) : List (NaryOp × Tree α) → Tree α
  | [] => .node (.nary op) operands
  | (next, t) :: more =>
    if next = op then extend op (operands ++ [t]) more
    else extend next [.node (.nary op) operands, t] more

/-- A first operand with the operators and operands that follow it. -/
def grouped (first : Tree α) : List (NaryOp × Tree α) → Tree α
  | [] => first
  | (op, t) :: more => extend op [first, t] more

/-- Operands with operators between them. -/
def chain (expected : Expectation) (op? : Token → Option NaryOp) (operand : Parser (Tree α)) :
    Parser (Tree α) := do
  let first ← attempt operand
  let others ← many do
    let op ← satisfy expected op?
    let t ← operand
    return (op, t)
  return grouped first others

/-- The operator of a call: a known function with one argument is an operator of its own. -/
def callOperator (name : String) (arguments : List (Tree α)) : Operator :=
  match Func.ofName? name, arguments with
  | some f, [_] => .func f
  | _, _ => .call name

/-- An expression in parentheses. -/
def parenthesizedOf (expression : Parser (Tree α)) : Parser (Tree α) := do
  let _ ← attempt (punct .openParen)
  let t ← expression
  let _ ← attempt (punct .closeParen)
  return t

/-- A name that is set to an expression. -/
def assignmentOf (expression : Parser (Tree α)) : Parser (Tree α) := do
  let target ← attempt identifier
  let _ ← attempt (punct .equals)
  let t ← expression
  return .node .assign [.var target.text, t]

/-- A name with arguments. -/
def callOf (expression : Parser (Tree α)) : Parser (Tree α) := do
  let name ← attempt identifier
  let _ ← attempt (punct .openParen)
  let arguments ← separated (punct .comma) expression
  let _ ← attempt (punct .closeParen)
  return .node (callOperator name.text arguments) arguments

/-- A number as a tree. -/
def constant [Literal α] : Parser (Tree α) := do
  let n ← number
  return .num n.value

/-- A name as a tree. -/
def nameLeaf : Parser (Tree α) := do
  let name ← identifier
  return .var name.text

/-- An operand of a power. Where none of the alternatives fits, an expression is missing. -/
def partOf [Literal α] (expression : Parser (Tree α)) : Parser (Tree α) :=
  orElse (parenthesizedOf expression) <|
  orElse (assignmentOf expression) <|
  orElse constant <|
  orElse (callOf expression) <|
  orElse nameLeaf <|
  refuse .expression

/-- A part with at most one exponent. -/
def powerOf [Literal α] (expression : Parser (Tree α)) : Parser (Tree α) := do
  let base ← attempt (partOf expression)
  let exponent ← optional do
    let _ ← attempt (punct .caret)
    partOf expression
  match exponent with
  | none => return base
  | some exponent => return .node (.nary .pow) [base, exponent]

/-- Factors. -/
def productOf [Literal α] (expression : Parser (Tree α)) : Parser (Tree α) :=
  chain .multiplicative multiplicative? (powerOf expression)

/-- Terms. -/
def sumOf [Literal α] (expression : Parser (Tree α)) : Parser (Tree α) :=
  chain .additive additive? (productOf expression)

/-- A sum, compared with another perhaps. -/
def expressionOf [Literal α] (expression : Parser (Tree α)) : Parser (Tree α) := do
  let left ← attempt (sumOf expression)
  let right ← optional do
    let r ← satisfy .comparison relation?
    let t ← sumOf expression
    return (r, t)
  match right with
  | none => return left
  | some (r, t) => return .node (.relation r) [left, t]

variable [Literal α]

/-- An expression. -/
def expression : Parser (Tree α) := fix expressionOf

/-- The sides of a comparison. -/
def sum : Parser (Tree α) := sumOf expression

/-- The operands of `+` and `-`. -/
def product : Parser (Tree α) := productOf expression

/-- The operands of `*` and `/`. -/
def power : Parser (Tree α) := powerOf expression

/-- The operands of `^`. -/
def part : Parser (Tree α) := partOf expression

/-- An assignment. -/
def assignment : Parser (Tree α) := assignmentOf expression

/-- A call. -/
def call : Parser (Tree α) := callOf expression

end Fluxion.Grammar

import Fluxion.Scalar

/-!
# Operators

The operators of trees by what they stand for: arithmetic on any number of operands, functions of
one argument, comparisons, and the parts of statements and programs.
-/

namespace Fluxion

/-- Arithmetic on a list of operands, associated to the left. -/
inductive NaryOp where
  | add | sub | mul | div | pow
  deriving DecidableEq

/-- The functions of one argument that expressions may apply. -/
inductive Func where
  | ln | sin | cos
  deriving DecidableEq

/-- Comparisons of two numbers. -/
inductive Relation where
  | more | less | equal
  deriving DecidableEq

/-- What an inner node of a tree stands for. -/
inductive Operator where
  | nary (op : NaryOp)
  | func (f : Func)
  | relation (r : Relation)
  /-- Operands: the variable that is set, and its value. -/
  | assign
  /-- Operands: a condition, what is done if it holds, and perhaps what is done if not. -/
  | ifElse
  /-- Operands: a condition and what is repeated. -/
  | whileLoop
  /-- Operands: the first step, the condition, the step between two rounds, what is repeated. -/
  | forLoop
  /-- Operands: statements, or the definitions of a program. -/
  | sequence
  /-- The operands are the arguments. -/
  | call (name : String)
  /-- Operands: the parameters, then the body. -/
  | define (name : String)
  /-- The operand is the value returned. -/
  | giveBack
  deriving DecidableEq

namespace NaryOp

/-- The sign written between two operands. -/
def sign : NaryOp → String
  | add => "+"
  | sub => "-"
  | mul => "*"
  | div => "/"
  | pow => "^"

/-- The operand that changes nothing on the right of the operator. -/
def neutral : NaryOp → Nat
  | add | sub => 0
  | mul | div | pow => 1

/-- Whether the neutral operand also changes nothing on the left. -/
def commutes : NaryOp → Bool
  | add | mul => true
  | sub | div | pow => false

/-- The operator on two numbers. -/
def apply {α : Type} [Scalar α] : NaryOp → α → α → α
  | add => Scalar.add
  | sub => Scalar.sub
  | mul => Scalar.mul
  | div => Scalar.div
  | pow => Scalar.pow

end NaryOp

namespace Func

/-- The name of a function. -/
def name : Func → String
  | ln => "ln"
  | sin => "sin"
  | cos => "cos"

/-- Every function once. -/
def all : List Func := [ln, sin, cos]

/-- The function with a given name, if there is one. -/
def ofName? (name : String) : Option Func := all.find? fun f => f.name == name

/-- The function on a number. -/
def apply {α : Type} [Scalar α] : Func → α → α
  | ln => Scalar.ln
  | sin => Scalar.sin
  | cos => Scalar.cos

end Func

namespace Relation

/-- The sign of a comparison. -/
def sign : Relation → String
  | more => ">"
  | less => "<"
  | equal => "~"

end Relation

namespace Operator

/-- The text that names an operator in a drawing of the tree and in messages. -/
def label : Operator → String
  | nary op => op.sign
  | func f => f.name
  | relation r => r.sign
  | assign => "="
  | ifElse => "if"
  | whileLoop => "while"
  | forLoop => "for"
  | sequence => "seq"
  | call name => name
  | define name => name
  | giveBack => "return"

/-- Arithmetic on a list of operands. -/
def isNary : Operator → Bool
  | nary _ => true
  | _ => false

/-- A function of one argument. -/
def isFunc : Operator → Bool
  | func _ => true
  | _ => false

/-- The operators of expressions that can be evaluated. -/
def isArithmetic : Operator → Bool
  | nary _ | func _ => true
  | _ => false

/-- The neutral operand of an operator, if it has one. -/
def neutral? : Operator → Option Nat
  | nary op => some op.neutral
  | _ => none

/-- The name that an operator carries. -/
def name? : Operator → Option String
  | call name | define name => some name
  | _ => none

end Operator

end Fluxion

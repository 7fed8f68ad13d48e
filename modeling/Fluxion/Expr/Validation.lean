import Fluxion.Expr.Basic
import Fluxion.Text.EditDistance

/-!
# Which trees are expressions

A tree is read as an expression from the leaves up, operands from left to right before their
operator, and the first operator that does not fit is the reason for a refusal: a part of a
statement, a call of a function that is not known, or a wrong number of operands.
-/

namespace Fluxion

/-- How many operands an operator of expressions takes. -/
inductive Arity where
  | atLeastOne
  | exactlyOne
  deriving DecidableEq

/-- Why a tree is not an expression. -/
inductive NotExpression where
  /-- An operator that belongs to statements. -/
  | statement (label : String)
  /-- A call of an unknown function, with the known names that are close to it. -/
  | unknownFunction (name : String) (suggestions : List String)
  /-- An operator or function with a wrong number of operands. -/
  | arity (label : String) (expected : Arity) (found : Nat)
  deriving DecidableEq

/-- The number of operands in words. -/
def Arity.text : Arity → String
  | atLeastOne => "at least one"
  | exactlyOne => "exactly one"

namespace NotExpression

/-- A name in quotes. -/
def quoted (name : String) : String := "`" ++ name ++ "`"

/-- The end of a message that names what may have been meant. -/
def suggestionText : List String → String
  | [] => ""
  | [single] => ", did you mean " ++ quoted single ++ "?"
  | names =>
    ", did you mean " ++ ", ".intercalate (names.dropLast.map quoted) ++ " or " ++
      quoted (names.getLastD "") ++ "?"

/-- The message of a refusal. -/
def message : NotExpression → String
  | statement label => quoted label ++ " is not part of an expression"
  | unknownFunction name suggestions =>
    "unknown function " ++ quoted name ++ suggestionText suggestions
  | arity label expected found =>
    quoted label ++ " takes " ++ expected.text ++ " operand(s), but " ++ toString found ++
      " were given"

/-- The names of known functions at an edit distance below two. -/
def suggestions (name : String) : List String :=
  (Func.all.map Func.name).filter fun known =>
    decide (Text.editDistance known.toList name.toList < 2)

end NotExpression

namespace Expr

variable {α : Type}

/-- The expression of an operator with operands that are expressions. -/
def ofNode (op : Operator) (es : List (Expr α)) : Except NotExpression (Expr α) :=
  match op, es with
  | .nary op, e :: es => .ok (nary op e es)
  | .nary op, [] => .error (.arity op.sign .atLeastOne 0)
  | .func f, [e] => .ok (func f e)
  | .func f, es => .error (.arity f.name .exactlyOne es.length)
  | .call name, es =>
    match Func.ofName? name with
    | some _ => .error (.arity name .exactlyOne es.length)
    | none => .error (.unknownFunction name (NotExpression.suggestions name))
  | op, _ => .error (.statement op.label)

end Expr

/-- The expression that a tree stands for, or the first reason why it stands for none. -/
def Tree.toExpr {α : Type} : Tree α → Except NotExpression (Expr α)
  | num a => .ok (.num a)
  | var x => .ok (.var x)
  | node op ts => do
    let es ← ts.mapM toExpr
    Expr.ofNode op es

end Fluxion

import Fluxion.Tree.Precedence

/-!
# Trees as source text

A tree is written as a list of pieces of text, each a token or a blank, and its text is all of them
in a row. Parentheses stand exactly where reading the text back would otherwise group it in another
way: around both sides of a comparison or a power unless they bind tighter, around the target of an
assignment unless it is a leaf, and around an operand of `+`, `-`, `*`, `/` that binds less tightly,
or as tightly unless it stands first and is another operator.

A statement is closed by a semicolon unless it ends in a block. For blocks each tree is written
twice over: as it stands, and as the statements that its operands are.
-/

namespace Fluxion

/-- The written forms of a tree. -/
structure Written where
  /-- The tree as it stands. -/
  text : List String
  /-- Its operands as statements. -/
  statements : List String

namespace Operator

/-- Whether operand number `i` needs parentheses. -/
def needsParens {α : Type} (op : Operator) (i : Nat) (t : Tree α) : Bool :=
  match op with
  | relation _ | nary .pow => decide (t.precedence ≤ op.precedence)
  | assign => i == 0 && decide (t.precedence < 6)
  | nary _ =>
    decide (t.precedence < op.precedence) ||
      (t.precedence == op.precedence && (decide (0 < i) || t.isOperator op))
  | _ => false

/-- Ends in a block, and so needs no semicolon as a statement. -/
def endsInBlock : Operator → Bool
  | ifElse | whileLoop | forLoop | define _ => true
  | _ => false

end Operator

namespace Written

/-- Pieces in parentheses. -/
def inParens (pieces : List String) : List String := "(" :: pieces ++ [")"]

/-- Pieces in braces, with a blank inside at either end. -/
def inBraces (pieces : List String) : List String := ["\x7b", " "] ++ pieces ++ [" ", "\x7d"]

/-- Lists of pieces with a sign between any two, followed by a blank. -/
def listed (sign : String) (items : List (List String)) : List String :=
  [sign, " "].intercalate items

/-- The operands of an operator, in parentheses where they are needed. -/
def operandTexts {α : Type} (op : Operator) (ts : List (Tree α)) (texts : List (List String)) :
    List (List String) :=
  (ts.zip texts).mapIdx fun i operand =>
    if op.needsParens i operand.1 then inParens operand.2 else operand.2

/-- The exponents of a power, each but the last followed by a parenthesis that closes the power so
far. -/
def exponentTexts : List (List String) → List String
  | [] => []
  | [last] => "^" :: last
  | exponent :: more => "^" :: exponent ++ ")" :: exponentTexts more

/-- A power, one level at a time: `(a^b)^c`. -/
def powerText : List (List String) → List String
  | [] => []
  | base :: exponents =>
    List.replicate (exponents.length - 1) "(" ++ base ++ exponentTexts exponents

/-- A statement, closed by a semicolon unless it ends in a block. -/
def statementText {α : Type} (t : Tree α) (text : List String) : List String :=
  if t.operator?.any Operator.endsInBlock then text else text ++ [";"]

/-- Statements with a blank between any two. -/
def statementTexts {α : Type} (ts : List (Tree α)) (texts : List (List String)) : List String :=
  [" "].intercalate ((ts.zip texts).map fun operand => statementText operand.1 operand.2)

/-- What stands before the last operand in braces, or the label alone if there is no operand. -/
def withBlock (label : String) (head : List (List String) → List String) (operands : List Written) :
    List String :=
  match operands.getLast? with
  | none => [label]
  | some body => head (operands.dropLast.map text) ++ inBraces body.statements

/-- An operator as it stands, from its operands and their written forms. -/
def ofNode {α : Type} (op : Operator) (ts : List (Tree α)) (operands : List Written) :
    List String :=
  let texts := operands.map text
  match op with
  | .nary .pow => powerText (operandTexts op ts texts)
  | .nary _ | .relation _ | .assign => [op.label].intercalate (operandTexts op ts texts)
  | .func _ | .call _ | .giveBack => op.label :: inParens (listed "," texts)
  | .sequence => statementTexts ts texts
  | .ifElse =>
    match operands with
    | [] => ["if"]
    | condition :: branches =>
      ["if", " "] ++ inParens condition.text ++ " " ::
        [" ", "else", " "].intercalate (branches.map fun branch => inBraces branch.statements)
  | .whileLoop =>
    withBlock op.label (fun head => ["while", " "] ++ [" "].intercalate head ++ [" "]) operands
  | .forLoop =>
    withBlock op.label (fun head => ["for", " "] ++ inParens (listed ";" head) ++ [" "]) operands
  | .define name =>
    withBlock op.label (fun head => ["function", " ", name] ++ inParens (listed "," head) ++ [" "])
      operands

/-- The written forms of a tree. -/
def ofTree {α : Type} [Literal α] : Tree α → Written
  | .num a => ⟨[Literal.text a], []⟩
  | .var x => ⟨[x], []⟩
  | .node op ts =>
    let operands := ts.map ofTree
    ⟨ofNode op ts operands, statementTexts ts (operands.map text)⟩

end Written

/-- The source text of a tree. -/
def Tree.text {α : Type} [Literal α] (t : Tree α) : String := String.join (Written.ofTree t).text

end Fluxion

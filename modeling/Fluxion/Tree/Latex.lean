import Fluxion.Tree.Precedence

/-!
# Trees as formulas

A tree in the notation of TeX's mathematics: quotients as fractions, powers as superscripts,
products with a raised dot. Parentheses stand around sums that are factors or are subtracted, and
around a base that is not held together by brackets of its own. Statements stand on lines of their
own.
-/

namespace Fluxion.Latex

/-- Pieces in braces, which TeX takes as one argument. -/
def inBraces (pieces : List String) : List String := "\x7b" :: pieces ++ ["\x7d"]

/-- Pieces in parentheses that grow with what is in them. -/
def inParens (pieces : List String) : List String := "\\left(" :: pieces ++ ["\\right)"]

/-- Pieces in parentheses if asked for. -/
def parensIf (needed : Bool) (pieces : List String) : List String :=
  if needed then inParens pieces else pieces

/-- A fraction. -/
def fraction (numerator denominator : List String) : List String :=
  "\\frac" :: inBraces numerator ++ inBraces denominator

/-- A superscript. -/
def power (base exponent : List String) : List String := base ++ "^" :: inBraces exponent

/-- A chain of fractions, from the left. -/
def fractions : List (List String) → List String
  | [] => []
  | first :: divisors => divisors.foldl fraction first

/-- A chain of powers, from the left. `grouped` is the base with the parentheses that it needs under
an exponent. -/
def powers (grouped : List String) : List (List String) → List String
  | [] => []
  | [single] => single
  | _ :: exponent :: more =>
    more.foldl (fun base exponent => power (inParens base) exponent) (power grouped exponent)

/-- A word in an upright or bold face. -/
def word (face name : String) : String := "\\" ++ face ++ "\x7b" ++ name ++ "\x7d"

/-- The separator of lines. -/
def newline : String := " \\\\ "

/-- The terms of a sum or a difference. -/
def terms {α : Type} (op : NaryOp) (ts : List (Tree α)) (texts : List (List String)) :
    List (List String) :=
  (ts.zip texts).mapIdx fun i operand =>
    parensIf (decide (0 < i) && op == .sub && decide (operand.1.precedence ≤ 2)) operand.2

/-- The factors of a product. -/
def factors {α : Type} (ts : List (Tree α)) (texts : List (List String)) : List (List String) :=
  (ts.zip texts).map fun operand => parensIf (decide (operand.1.precedence ≤ 2)) operand.2

/-- A base with parentheses unless it binds tighter than a power. -/
def groupedBase {α : Type} (ts : List (Tree α)) (texts : List (List String)) : List String :=
  match ts, texts with
  | t :: _, text :: _ => parensIf (decide (t.precedence ≤ 4)) text
  | _, _ => []

/-- An operator from its operands and their formulas. -/
def ofNode {α : Type} (op : Operator) (ts : List (Tree α)) (texts : List (List String)) :
    List String :=
  match op with
  | .nary .add => ["+"].intercalate (terms .add ts texts)
  | .nary .sub => ["-"].intercalate (terms .sub ts texts)
  | .nary .mul => [" \\cdot "].intercalate (factors ts texts)
  | .nary .div => fractions texts
  | .nary .pow => powers (groupedBase ts texts) texts
  | .func f => ("\\" ++ f.name) :: inParens ([", "].intercalate texts)
  | .call name =>
    [word "mathrm" (" " ++ name ++ " "), " "] ++ inParens ([", "].intercalate texts)
  | .assign => [" := "].intercalate texts
  | .relation .more => [" > "].intercalate texts
  | .relation .less => [" < "].intercalate texts
  | .relation .equal => [" = "].intercalate texts
  | .giveBack => [word "mathbf" "return", "\\ "] ++ [", "].intercalate texts
  | .sequence => [newline].intercalate texts
  | .ifElse =>
    match texts with
    | [] => [word "mathbf" "if"]
    | condition :: branches =>
      [word "mathbf" "if", "\\ "] ++ condition ++
        [newline, word "mathbf" "else"].intercalate (branches.map fun branch => newline :: branch)
  | .whileLoop => [word "mathbf" "while", "\\ "] ++ [newline].intercalate texts
  | .forLoop =>
    [word "mathbf" "for", "\\ "] ++
      match texts.getLast? with
      | none => []
      | some body => [";\\ "].intercalate texts.dropLast ++ newline :: body
  | .define name =>
    [word "mathrm" (" " ++ name ++ " "), " "] ++
      inParens ([", "].intercalate texts.dropLast) ++
      match texts.getLast? with
      | none => []
      | some body => newline :: body

/-- The pieces of the formula of a tree. -/
def pieces {α : Type} [Literal α] : Tree α → List String
  | .num a => [Literal.text a]
  | .var x => [x]
  | .node op ts => ofNode op ts (ts.map pieces)

end Fluxion.Latex

namespace Fluxion

/-- The formula of a tree. -/
def Tree.latex {α : Type} [Literal α] (t : Tree α) : String := String.join (Latex.pieces t)

end Fluxion

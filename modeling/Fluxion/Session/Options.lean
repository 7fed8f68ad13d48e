import Fluxion.Grammar.Failure

/-!
# Options of a session

What a line of input is read as, the variable to differentiate with respect to, and how many times.
-/

namespace Fluxion

/-- What a line of input is read as. -/
inductive Mode where
  /-- Definitions of functions, which are simplified. -/
  | program
  /-- An expression, which is simplified and differentiated. -/
  | expression
  deriving DecidableEq

namespace Mode

/-- The mode that a word names. -/
def ofText? : String → Option Mode
  | "program" | "prog" => some program
  | "expression" | "expr" => some expression
  | _ => none

/-- The word that names a mode in what is printed. -/
def text : Mode → String
  | program => "program"
  | expression => "expr"

end Mode

/-- The options that last from line to line. -/
structure Options where
  variableName : String := "x"
  mode : Mode := .expression
  order : Nat := 1
  deriving DecidableEq

/-- The options in one line. -/
def Options.text (o : Options) : String :=
  "var = " ++ o.variableName ++ ", mode = " ++ o.mode.text ++ ", order = " ++ toString o.order

end Fluxion

import Fluxion.Expr.Basic

/-!
# Evaluation

The value of an expression under values for its variables. Operators associate to the left. The only
failure is a variable without a value; of several the one furthest to the left is reported.
-/

namespace Fluxion

/-- A variable that has no value. -/
structure UnboundVariable where
  name : String
  deriving DecidableEq

/-- The message of the failure. -/
def UnboundVariable.message (e : UnboundVariable) : String :=
  "no value was given for the variable `" ++ e.name ++ "`"

/-- Values for variables. The first value of a name is the one that counts. -/
abbrev Bindings (α : Type) := List (String × α)

namespace Expr

variable {α : Type} [Scalar α]

/-- The value of an expression. -/
def eval (bindings : Bindings α) : Expr α → Except UnboundVariable α
  | num a => .ok a
  | var x =>
    match bindings.lookup x with
    | some a => .ok a
    | none => .error ⟨x⟩
  | nary op e es => do
    let a ← e.eval bindings
    let as ← es.mapM (eval bindings)
    return as.foldl op.apply a
  | func f e => do
    let a ← e.eval bindings
    return f.apply a

end Expr

end Fluxion

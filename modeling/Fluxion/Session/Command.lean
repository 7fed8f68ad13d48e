import Fluxion.Session.Options
import Fluxion.Decimal.Basic
import Fluxion.Text.Blank

/-!
# Commands

A line that starts with a colon is a command: a name, and for some names an argument, which is the
next word. Further words are ignored.
-/

namespace Fluxion

/-- A command. -/
inductive Command where
  | setVariable (name : String)
  | setMode (mode : Mode)
  | setOrder (order : Nat)
  | showOptions
  | showHelp
  deriving DecidableEq

/-- Why a line is no proper command. -/
inductive CommandError where
  | unknownCommand (name : String)
  | missingArgument (command : String)
  | invalidVariable (name : String)
  | unknownMode (mode : String)
  | invalidOrder (order : String)
  deriving DecidableEq

/-- The message of an error. -/
def CommandError.message : CommandError → String
  | unknownCommand name => "unknown command `:" ++ name ++ "`, try `:help`"
  | missingArgument command => "`:" ++ command ++ "` needs an argument"
  | invalidVariable name => "`" ++ name ++ "` is not a valid variable name"
  | unknownMode mode => "unknown mode `" ++ mode ++ "`, expected `program` or `expr`"
  | invalidOrder order => "`" ++ order ++ "` is not a valid derivative order"

namespace Command

/-- The least number that is too large for an order. -/
def orderBound : Nat := Nat.pow 2 64

/-- A letter, then letters and digits, all of ASCII, and not too many of them. -/
def isVariableName (name : String) : Bool :=
  decide (name.utf8ByteSize ≤ maxNameBytes) && name.toList.head?.any Char.isAlpha &&
    name.toList.all Char.isAlphanum

/-- A whole number below the bound, with a plus sign in front perhaps. -/
def readOrder? (text : String) : Option Nat :=
  let digits := match text.toList with
    | '+' :: cs => cs
    | cs => cs
  if digits ≠ [] ∧ digits.all Char.isDigit ∧ Decimal.ofDigits digits < orderBound then
    some (Decimal.ofDigits digits)
  else none

/-- The command `:var`. -/
def readVariable (name : String) : Except CommandError Command :=
  if isVariableName name then .ok (setVariable name) else .error (.invalidVariable name)

/-- The command `:mode`. -/
def readMode (text : String) : Except CommandError Command :=
  match Mode.ofText? text with
  | some mode => .ok (setMode mode)
  | none => .error (.unknownMode text)

/-- The command `:order`. -/
def readOrder (text : String) : Except CommandError Command :=
  match readOrder? text with
  | some order => .ok (setOrder order)
  | none => .error (.invalidOrder text)

/-- A variable is set to the argument as it is. -/
theorem readVariable_eq_ok {text : String} {c : Command} (h : readVariable text = .ok c) :
    isVariableName text = true ∧ c = setVariable text := by
  rw [readVariable] at h
  split at h
  · next hname =>
    cases h
    exact ⟨hname, rfl⟩
  · cases h

theorem readMode_eq_ok {text : String} {c : Command} (h : readMode text = .ok c) :
    ∃ mode, Mode.ofText? text = some mode ∧ c = setMode mode := by
  rw [readMode] at h
  split at h
  · next mode hmode =>
    cases h
    exact ⟨mode, hmode, rfl⟩
  · cases h

/-- An order is set to the number that the argument stands for. -/
theorem readOrder_eq_ok {text : String} {c : Command} (h : readOrder text = .ok c) :
    ∃ order, readOrder? text = some order ∧ c = setOrder order := by
  rw [readOrder] at h
  split at h
  · next order horder =>
    cases h
    exact ⟨order, horder, rfl⟩
  · cases h

/-- The command with a given name and argument. -/
def ofWords (name : String) (argument : Option String) : Except CommandError Command :=
  match name, argument with
  | "var", some text => readVariable text
  | "mode", some text => readMode text
  | "order", some text => readOrder text
  | "var", none | "mode", none | "order", none => .error (.missingArgument name)
  | "options", _ => .ok showOptions
  | "help", _ => .ok showHelp
  | _, _ => .error (.unknownCommand name)

/-- The command that a line is, or nothing if the line does not start with a colon. -/
def ofLine? (line : String) : Option (Except CommandError Command) :=
  match Text.trim line.toList with
  | ':' :: cs =>
    let words := (Text.words cs).map String.ofList
    some (ofWords (words.head?.getD "") words.tail.head?)
  | _ => none

/-- The text of the command `:help`. -/
def helpText : String :=
  "commands:\n" ++
  "  :var <name>            differentiate with respect to <name>\n" ++
  "  :mode program|expr     parse lines as programs or as expressions\n" ++
  "  :order <n>             differentiate expressions <n> times\n" ++
  "  :options               show the current options\n" ++
  "  :help                  show this message"

/-- The options after a command. -/
def apply (o : Options) : Command → Options
  | setVariable name => { o with variableName := name }
  | setMode mode => { o with mode := mode }
  | setOrder order => { o with order := order }
  | showOptions | showHelp => o

/-- What a command prints, given the options after it. -/
def reply (o : Options) : Command → String
  | setVariable name => "differentiating with respect to `" ++ name ++ "`"
  | setMode mode => "mode set to " ++ mode.text
  | setOrder order => "derivative order set to " ++ toString order
  | showOptions => o.text
  | showHelp => helpText

end Command

end Fluxion

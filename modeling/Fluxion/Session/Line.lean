import Fluxion.Session.Command
import Fluxion.Grammar.Reading
import Fluxion.Tree.SourceText
import Fluxion.Expr.HigherDerivative

/-!
# Lines of a session

A line is blank, a command, or source text. A command changes the options or shows something;
source text is read as the mode says, with an end mark added, and its simplified form is printed,
that of an expression together with the derivative. Lines depend on each other through the options
alone.
-/

namespace Fluxion

/-- Why a line or a file is refused. -/
inductive SessionError where
  | source (e : SourceError)
  | notExpression (e : NotExpression)
  | command (e : CommandError)

namespace SessionError

/-- The error in one line. -/
def message : SessionError → String
  | source e => "parse error at byte " ++ toString e.span.start
  | notExpression e => e.message
  | command e => e.message

/-- The first line that is written about the error. -/
def firstLine : SessionError → String
  | source e => "Error: " ++ e.cause.message
  | notExpression e => "error: " ++ e.message
  | command e => "error: " ++ e.message

end SessionError

/-- The name of the derivative of a given order: `d/dx`, `d^2/dx^2`. -/
def derivativeName (v : String) (order : Nat) : String :=
  if order = 1 then "d/d" ++ v
  else "d^" ++ toString order ++ "/d" ++ v ++ "^" ++ toString order

namespace Session

/-- What is printed for an expression: its normal form and its derivative. -/
def processExpression (t : Tree Float) (o : Options) : Except SessionError String :=
  match t.nthDerivative o.variableName o.order with
  | .error e => .error (.notExpression e)
  | .ok derivative =>
    .ok (t.simplify.text ++ "\n" ++ derivativeName o.variableName o.order ++ ": " ++
      derivative.text)

/-- What is printed for a text that ends in `$`. -/
def process (text : String) (o : Options) : Except SessionError String :=
  match o.mode with
  | .expression =>
    match Entry.expression.parse text with
    | .error e => .error (.source e)
    | .ok t => processExpression t o
  | .program =>
    match Entry.program.parse text with
    | .error e => .error (.source e)
    | .ok (t : Tree Float) => .ok t.simplify.text

/-- What comes of a line. -/
inductive Response where
  | silent
  | printed (text : String)
  | refused (e : SessionError)

/-- What comes of a line, and the options after it. -/
def handleLine (line : String) (o : Options) : Response × Options :=
  if line.toList.all Text.isWhite then (.silent, o)
  else
    match Command.ofLine? line with
    | some (.ok command) => (.printed (command.reply (command.apply o)), command.apply o)
    | some (.error e) => (.refused (.command e), o)
    | none =>
      match process (withSentinel line) o with
      | .ok text => (.printed text, o)
      | .error e => (.refused e, o)

/-- What comes of each of some lines, with the options after it. -/
def handleLines : List String → Options → List (Response × Options)
  | [], _ => []
  | line :: lines, o =>
    let after := handleLine line o
    after :: handleLines lines after.2

end Session

end Fluxion

import Fluxion.Session.Document

/-!
# The command line

With the name of a file, the program in it is simplified, printed, and written as a graph and as a
page of TeX next to it. Without, every line of the standard input is handled in turn. The exit
code tells whether something was refused.
-/

open Fluxion

/-- Writes an error to the standard error; one in source text with its place and what may help. -/
def reportError (e : SessionError) : IO Unit := do
  IO.eprintln e.firstLine
  match e with
  | .source e =>
    IO.eprintln ("  at byte " ++ toString e.span.start ++ ": " ++ e.cause.label)
    match e.cause.help? with
    | some help => IO.eprintln ("  help: " ++ help)
    | none => return ()
  | _ => return ()

/-- Handles a file. -/
def runFile (path : String) : IO UInt32 := do
  match Document.ofProgram (← IO.FS.readFile path) with
  | .error e =>
    reportError (.source e)
    return 1
  | .ok document =>
    IO.println document.text
    let outputs := [(outputPath path "dot", document.dot), (outputPath path "tex", document.tex)]
    for (name, text) in outputs do
      IO.FS.writeFile name text
      IO.eprintln name
    return 0

/-- Handles one line, and yields the options after it and whether the line was accepted. -/
def runLine (line : String) (o : Options) : IO (Options × Bool) := do
  let (response, o) := Session.handleLine line o
  match response with
  | .silent => return (o, true)
  | .printed text =>
    IO.println text
    return (o, true)
  | .refused e =>
    reportError e
    return (o, false)

/-- Handles lines until the input ends, with a prompt if it is a terminal. -/
partial def runLines (input output : IO.FS.Stream) (o : Options) (accepted : Bool) : IO Bool := do
  if ← input.isTty then
    output.putStr "> "
    output.flush
  let line ← input.getLine
  if line.isEmpty then return accepted
  let (o, ok) ← runLine (String.ofList (Text.withoutLineBreak line.toList)) o
  runLines input output o (accepted && ok)

def main (arguments : List String) : IO UInt32 := do
  match arguments with
  | path :: _ =>
    try runFile path
    catch e =>
      IO.eprintln ("error: " ++ toString e)
      return 1
  | [] =>
    let input ← IO.getStdin
    let output ← IO.getStdout
    let interactive ← input.isTty
    let accepted ← runLines input output {} true
    return if accepted || interactive then 0 else 1

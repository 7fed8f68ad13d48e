import Fluxion.Session.Line
import Fluxion.Tree.Latex
import Fluxion.Tree.Dot

/-!
# Documents

A program in a file is printed in its simplified form, and that form is written next to the file
as a graph and as a page of TeX.
-/

namespace Fluxion

/-- A page of TeX with the formula of a tree. -/
def Tree.texDocument {α : Type} [Literal α] (t : Tree α) : String :=
  "$$ " ++ t.latex ++ " $$\n\\bye\n"

/-- The name of a file written next to another. -/
def outputPath (path extension : String) : String := path ++ "." ++ extension

/-- What comes of a program. -/
structure Document where
  /-- What is printed. -/
  text : String
  /-- The graph. -/
  dot : String
  /-- The page of TeX. -/
  tex : String

/-- The document of a program. -/
def Document.ofProgram (text : String) : Except SourceError Document :=
  match Entry.program.parse (withSentinel text) with
  | .error e => .error e
  | .ok (t : Tree Float) =>
    let simplified := t.simplify
    .ok ⟨simplified.text, simplified.dot, simplified.texDocument⟩

end Fluxion

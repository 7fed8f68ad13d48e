import Fluxion.Tree.Basic

/-!
# Trees as graphs

A tree in the language of Graphviz: one line for each node and one for each edge. Nodes are numbered
in the order in which they are written, a node before its operands; the edge to an operand follows
the whole of the operand. So the first free number is handed on from one operand to the next.
-/

namespace Fluxion.Dot

/-- A label inside double quotes: quotes and backslashes are led by a backslash. -/
def escape (label : String) : String :=
  String.ofList (label.toList.flatMap fun c =>
    if c == '\\' || c == '"' then ['\\', c] else [c])

/-- The outline of a node. -/
def shape {α : Type} : Tree α → String
  | .num _ => "ellipse"
  | .var _ => "diamond"
  | .node _ _ => "box"

/-- The name of a node. -/
def nodeName (id : Nat) : String := "n" ++ toString id

/-- The line that declares a node. -/
def declaration {α : Type} [Literal α] (id : Nat) (t : Tree α) : String :=
  "    " ++ nodeName id ++ " [label=\"" ++ escape t.label ++ "\", shape=" ++ shape t ++ "];\n"

/-- The line of an edge. -/
def edge (parent child : Nat) : String :=
  "    " ++ nodeName parent ++ " -> " ++ nodeName child ++ ";\n"

mutual

/-- The lines of a tree, where `next` is the first number that is free. The root takes it; the
number that is free behind the tree comes with the lines. -/
def write {α : Type} [Literal α] (next : Nat) : Tree α → List String × Nat
  | .node op ts =>
    let operands := writeOperands next (next + 1) ts
    (declaration next (.node op ts) :: operands.1, operands.2)
  | .num a => ([declaration next (.num a)], next + 1)
  | .var x => ([declaration next (.var x : Tree α)], next + 1)

/-- The lines of the operands of node `parent`, each with the edge to it, and the number that is
free behind them. -/
def writeOperands {α : Type} [Literal α] (parent next : Nat) : List (Tree α) → List String × Nat
  | [] => ([], next)
  | t :: ts =>
    let first := write next t
    let others := writeOperands parent first.2 ts
    (first.1 ++ edge parent next :: others.1, others.2)

end

end Fluxion.Dot

namespace Fluxion

/-- The graph of a tree. -/
def Tree.dot {α : Type} [Literal α] (t : Tree α) : String :=
  "digraph tree \x7b\n" ++ String.join (Dot.write 0 t).1 ++ "\x7d\n"

end Fluxion

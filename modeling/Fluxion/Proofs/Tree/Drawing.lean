import Fluxion.Proofs.Expr.Trees
import Fluxion.Tree.Dot
import Fluxion.Tree.PostOrder

/-!
# What a drawing shows

The lines of a drawing as data, apart from how they are spelled: a line declares a node or is an
edge (`Dot.Line`). The places of a tree are numbered in pre-order (`Tree.preOrder`), and
`Dot.Depicts` says that lines declare each of them once, in this order, and join each but the root
with its parent, the operands of an operator from left to right. The lines that are written for a
tree do so (`Dot.depicts_drawing`).

Numbers are given out on the way, so what holds of the whole drawing is proved for a part that
starts at any number and any place.
-/

namespace Fluxion

variable {α : Type}

/-- The three sorts of nodes. -/
inductive NodeClass where
  | number | name | operator
  deriving DecidableEq

namespace Tree

/-- The sort of the root. -/
def nodeClass : Tree α → NodeClass
  | num _ => .number
  | var _ => .name
  | node _ _ => .operator

/-- What is shown of the root: the text of a number, a name or the label of an operator, and its
sort. -/
def face [Literal α] : Tree α → String × NodeClass
  | num a => (Literal.text a, .number)
  | var x => (x, .name)
  | node op _ => (op.label, .operator)

/-- The text that is shown of a root is its label. -/
theorem face_eq [Literal α] (t : Tree α) : t.face = (t.label, t.nodeClass) := by
  cases t <;> rfl

mutual

/-- The places of a tree in pre-order, an operator before its operands, where `path` leads to the
tree. -/
def preOrder (path : List Nat) : Tree α → List (Place α)
  | num a => [⟨path, num a⟩]
  | var x => [⟨path, var x⟩]
  | node op ts => ⟨path, node op ts⟩ :: operandPreOrder path 0 ts

/-- The places of the operands of an operator at `path`, from operand number `i` on. -/
def operandPreOrder (path : List Nat) (i : Nat) : List (Tree α) → List (Place α)
  | [] => []
  | t :: ts => preOrder (i :: path) t ++ operandPreOrder path (i + 1) ts

end

/-- The root comes first, before all places below it. -/
theorem preOrder_eq (path : List Nat) (t : Tree α) :
    t.preOrder path = ⟨path, t⟩ :: operandPreOrder path 0 t.operands := by
  cases t <;> rfl

/-- A tree has one node more than its operands together. -/
theorem size_eq (t : Tree α) : t.size = 1 + total (t.operands.map size) := by
  cases t with
  | num a => rw [size]; rfl
  | var x => rw [size]; rfl
  | node op ts => rw [size, operands]

/-- Induction on the operands, of which a leaf has none. -/
@[elab_as_elim]
theorem induction_operands {motive : Tree α → Prop}
    (step : ∀ t, (∀ u ∈ t.operands, motive u) → motive t) (t : Tree α) : motive t := by
  induction t using operands_induction with
  | num a => exact step _ nofun
  | var x => exact step _ nofun
  | node op ts ih => exact step _ ih

/-- There are as many places below an operator as nodes in its operands. -/
theorem length_operandPreOrder {ts : List (Tree α)}
    (ih : ∀ t ∈ ts, ∀ path, (t.preOrder path).length = t.size) (path : List Nat) (i : Nat) :
    (operandPreOrder path i ts).length = total (ts.map size) := by
  induction ts generalizing i with
  | nil => rfl
  | cons t ts ihts =>
    obtain ⟨ht, hts⟩ := List.forall_mem_cons.1 ih
    rw [operandPreOrder, List.length_append, ht, ihts hts, List.map_cons, total]

/-- There are as many places as nodes. -/
theorem length_preOrder (path : List Nat) (t : Tree α) : (t.preOrder path).length = t.size := by
  induction t using induction_operands generalizing path with
  | step t ih =>
    rw [preOrder_eq, size_eq, List.length_cons, length_operandPreOrder ih, Nat.add_comm]

end Tree

namespace Dot

open Fluxion.Tree

/-- A line of a drawing. -/
inductive Line where
  /-- A node with its number and what is shown of it. -/
  | node (id : Nat) (face : String × NodeClass)
  /-- An edge between two numbers. -/
  | edge (parent child : Nat)

/-- The nodes that lines declare, in order. -/
def nodes (lines : List Line) : List (Nat × String × NodeClass) :=
  lines.filterMap fun
    | .node id face => some (id, face)
    | .edge _ _ => none

/-- The edges among some lines, in order. -/
def edges (lines : List Line) : List (Nat × Nat) :=
  lines.filterMap fun
    | .node _ _ => none
    | .edge parent child => some (parent, child)

section

variable (lines lines' : List Line)

@[simp] theorem nodes_nil : nodes [] = [] := rfl

@[simp] theorem nodes_node (id : Nat) (face : String × NodeClass) :
    nodes (.node id face :: lines) = (id, face) :: nodes lines := rfl

@[simp] theorem nodes_edge (m n : Nat) : nodes (.edge m n :: lines) = nodes lines := rfl

@[simp] theorem nodes_append : nodes (lines ++ lines') = nodes lines ++ nodes lines' :=
  List.filterMap_append

@[simp] theorem edges_nil : edges [] = [] := rfl

@[simp] theorem edges_node (id : Nat) (face : String × NodeClass) :
    edges (.node id face :: lines) = edges lines := rfl

@[simp] theorem edges_edge (m n : Nat) : edges (.edge m n :: lines) = (m, n) :: edges lines := rfl

@[simp] theorem edges_append : edges (lines ++ lines') = edges lines ++ edges lines' :=
  List.filterMap_append

end

/-- Edges from one node are written in the order of the numbers at their ends. -/
def Ordered (es : List (Nat × Nat)) : Prop := es.Pairwise fun e e' => e.1 = e'.1 → e.2 < e'.2

/-- The lines show the tree: its nodes are declared in pre-order with the numbers from zero on,
every node but the root is at the end of one edge, which comes from its parent, and the edges to the
operands of a node have their order. -/
structure Depicts [Literal α] (lines : List Line) (t : Tree α) : Prop where
  ids : (nodes lines).map Prod.fst = List.range t.size
  faces : (nodes lines).map Prod.snd = (t.preOrder []).map fun p => p.tree.face
  children : ((edges lines).map Prod.snd).Perm (List.range' 1 (t.size - 1))
  parents : ∀ e ∈ edges lines, ∃ p q i, (t.preOrder [])[e.1]? = some p ∧
    (t.preOrder [])[e.2]? = some q ∧ q.path = i :: p.path
  ordered : Ordered (edges lines)

/-- The edge `e` joins a place with that of one of its operands, in a list of places numbered from
`id` on. -/
def Joins (places : List (Place α)) (id : Nat) (e : Nat × Nat) : Prop :=
  ∃ p q i, (p, e.1) ∈ places.zipIdx id ∧ (q, e.2) ∈ places.zipIdx id ∧ q.path = i :: p.path

/-- Later places do not change the numbers of the first. -/
theorem Joins.append_left {ps : List (Place α)} {id : Nat} {e : Nat × Nat} (h : Joins ps id e)
    (qs : List (Place α)) : Joins (ps ++ qs) id e := by
  obtain ⟨p, q, i, hp, hq, hpath⟩ := h
  rw [Joins, List.zipIdx_append]
  exact ⟨p, q, i, List.mem_append_left _ hp, List.mem_append_left _ hq, hpath⟩

/-- With places in front all numbers are higher by so many. -/
theorem Joins.append_right {qs : List (Place α)} {id : Nat} {e : Nat × Nat} (ps : List (Place α))
    (h : Joins qs (id + ps.length) e) : Joins (ps ++ qs) id e := by
  obtain ⟨p, q, i, hp, hq, hpath⟩ := h
  rw [Joins, List.zipIdx_append]
  exact ⟨p, q, i, List.mem_append_right _ hp, List.mem_append_right _ hq, hpath⟩

/-- An edge joins numbers that were given out. -/
theorem Joins.bounds {ps : List (Place α)} {id : Nat} {e : Nat × Nat} (h : Joins ps id e) :
    id ≤ e.1 ∧ e.1 < id + ps.length ∧ e.2 < id + ps.length := by
  obtain ⟨p, q, i, hp, hq, -⟩ := h
  have hleft := List.mem_zipIdx hp
  have hright := List.mem_zipIdx hq
  omega

variable [Literal α]

mutual

/-- The lines of a tree whose root has the number `id`. -/
def drawing (id : Nat) : Tree α → List Line
  | .node op ts => .node id (Tree.node op ts).face :: operandDrawing id (id + 1) ts
  | .num a => [.node id (Tree.num a).face]
  | .var x => [.node id (Tree.var x : Tree α).face]

/-- The lines of the operands of node `parent`, numbered from `id` on. -/
def operandDrawing (parent id : Nat) : List (Tree α) → List Line
  | [] => []
  | t :: ts => drawing id t ++ .edge parent id :: operandDrawing parent (id + t.size) ts

end

/-- A node is declared first, and then its operands with the numbers after its own. -/
theorem drawing_eq (id : Nat) (t : Tree α) :
    drawing id t = .node id t.face :: operandDrawing id (id + 1) t.operands := by
  cases t <;> rfl

/-! ## Nodes -/

/-- The operands take up the numbers one after another. -/
theorem ids_operandDrawing {ts : List (Tree α)}
    (ih : ∀ t ∈ ts, ∀ id, (nodes (drawing id t)).map Prod.fst = List.range' id t.size)
    (parent id : Nat) :
    (nodes (operandDrawing parent id ts)).map Prod.fst = List.range' id (total (ts.map size)) := by
  induction ts generalizing id with
  | nil => rfl
  | cons t ts ihts =>
    obtain ⟨ht, hts⟩ := List.forall_mem_cons.1 ih
    rw [operandDrawing, nodes_append, nodes_edge, List.map_append, ht, ihts hts, List.map_cons,
      total, ← List.range'_append_1]

/-- The numbers are given out one after another. -/
theorem ids_drawing (id : Nat) (t : Tree α) :
    (nodes (drawing id t)).map Prod.fst = List.range' id t.size := by
  induction t using induction_operands generalizing id with
  | step t ih =>
    rw [drawing_eq, nodes_node, List.map_cons, ids_operandDrawing ih, size_eq, Nat.add_comm 1,
      List.range'_succ]

/-- What is shown are the operands in pre-order, each as itself. -/
theorem faces_operandDrawing {ts : List (Tree α)}
    (ih : ∀ t ∈ ts, ∀ id path,
      (nodes (drawing id t)).map Prod.snd = (t.preOrder path).map fun p => p.tree.face)
    (parent id : Nat) (path : List Nat) (i : Nat) :
    (nodes (operandDrawing parent id ts)).map Prod.snd =
      (operandPreOrder path i ts).map fun p => p.tree.face := by
  induction ts generalizing id i with
  | nil => rfl
  | cons t ts ihts =>
    obtain ⟨ht, hts⟩ := List.forall_mem_cons.1 ih
    rw [operandDrawing, operandPreOrder, nodes_append, nodes_edge, List.map_append, List.map_append,
      ht, ihts hts]

/-- The nodes are declared in pre-order. -/
theorem faces_drawing (id : Nat) (path : List Nat) (t : Tree α) :
    (nodes (drawing id t)).map Prod.snd = (t.preOrder path).map fun p => p.tree.face := by
  induction t using induction_operands generalizing id path with
  | step t ih =>
    rw [drawing_eq, preOrder_eq, nodes_node, List.map_cons, List.map_cons, faces_operandDrawing ih]

/-! ## Edges -/

/-- Every node in the operands is at the end of one edge. -/
theorem children_operandDrawing {ts : List (Tree α)}
    (ih : ∀ t ∈ ts, ∀ id,
      ((edges (drawing id t)).map Prod.snd).Perm (List.range' (id + 1) (t.size - 1)))
    (parent id : Nat) :
    ((edges (operandDrawing parent id ts)).map Prod.snd).Perm
      (List.range' id (total (ts.map size))) := by
  induction ts generalizing id with
  | nil => exact .refl _
  | cons t ts ihts =>
    obtain ⟨ht, hts⟩ := List.forall_mem_cons.1 ih
    obtain ⟨n, hn⟩ : ∃ n, t.size = n + 1 := ⟨_, (size_eq t).trans (Nat.add_comm ..)⟩
    have hfirst := ht id
    rw [hn, Nat.add_sub_cancel] at hfirst
    -- the edge to the root of `t` comes after those below it, and its number before theirs
    rw [operandDrawing, edges_append, edges_edge, List.map_append, List.map_cons, List.map_cons,
      total, ← List.range'_append_1, hn, List.range'_succ, List.cons_append]
    exact List.perm_middle.trans ((hfirst.append (ihts hts _)).cons id)

/-- Every node but the root is at the end of one edge. -/
theorem children_drawing (id : Nat) (t : Tree α) :
    ((edges (drawing id t)).map Prod.snd).Perm (List.range' (id + 1) (t.size - 1)) := by
  induction t using induction_operands generalizing id with
  | step t ih =>
    rw [drawing_eq, edges_node, size_eq, Nat.add_sub_cancel_left]
    exact children_operandDrawing ih id (id + 1)

/-- An edge of operands joins places among theirs, or `parent` with one of the operands. -/
theorem joins_operandDrawing {ts : List (Tree α)}
    (ih : ∀ t ∈ ts, ∀ id path, ∀ e ∈ edges (drawing id t), Joins (t.preOrder path) id e)
    (parent id : Nat) (path : List Nat) (i : Nat) :
    ∀ e ∈ edges (operandDrawing parent id ts), Joins (operandPreOrder path i ts) id e ∨
      e.1 = parent ∧
        ∃ q j, (q, e.2) ∈ (operandPreOrder path i ts).zipIdx id ∧ q.path = j :: path := by
  induction ts generalizing id i with
  | nil => nofun
  | cons t ts ihts =>
    obtain ⟨ht, hts⟩ := List.forall_mem_cons.1 ih
    intro e he
    rw [operandDrawing, edges_append, edges_edge] at he
    rw [operandPreOrder]
    -- an edge is inside the first operand, leads to it, or belongs to the operands behind it
    rcases List.mem_append.1 he with he | he
    · exact Or.inl ((ht id (i :: path) e he).append_left _)
    rcases List.mem_cons.1 he with rfl | he
    · refine Or.inr ⟨rfl, ⟨i :: path, t⟩, i, ?_, rfl⟩
      rw [preOrder_eq, List.cons_append, List.zipIdx_cons]
      exact List.mem_cons_self
    · rw [← length_preOrder (i :: path) t] at he
      rcases ihts hts _ (i + 1) e he with hjoins | ⟨hparent, q, j, hq, hpath⟩
      · exact Or.inl (hjoins.append_right _)
      · refine Or.inr ⟨hparent, q, j, ?_, hpath⟩
        rw [List.zipIdx_append]
        exact List.mem_append_right _ hq

/-- Every edge comes from the parent of the node at its end. -/
theorem joins_drawing (id : Nat) (path : List Nat) (t : Tree α) :
    ∀ e ∈ edges (drawing id t), Joins (t.preOrder path) id e := by
  induction t using induction_operands generalizing id path with
  | step t ih =>
    intro e he
    rw [drawing_eq, edges_node] at he
    rw [preOrder_eq]
    rcases joins_operandDrawing ih id (id + 1) path 0 e he with hjoins | ⟨hparent, q, j, hq, hpath⟩
    · exact hjoins.append_right [⟨path, t⟩]
    · rw [Joins, List.zipIdx_cons]
      refine ⟨⟨path, t⟩, q, j, ?_, List.mem_cons_of_mem _ hq, hpath⟩
      rw [hparent]
      exact List.mem_cons_self

/-- The edges from the parent come with rising numbers, and those within an operand have their
order. -/
theorem ordered_operandDrawing {ts : List (Tree α)}
    (ih : ∀ t ∈ ts, ∀ id, Ordered (edges (drawing id t))) {parent id : Nat} (h : parent < id) :
    Ordered (edges (operandDrawing parent id ts)) := by
  induction ts generalizing id with
  | nil => exact .nil
  | cons t ts ihts =>
    obtain ⟨ht, hts⟩ := List.forall_mem_cons.1 ih
    -- below `t` the numbers are those from `id` on, and behind it those from `id + t.size` on
    have hbelow : ∀ e ∈ edges (drawing id t), id ≤ e.1 ∧ e.1 < id + t.size := by
      intro e he
      have hbounds := (joins_drawing id [] t e he).bounds
      rw [length_preOrder] at hbounds
      exact ⟨hbounds.1, hbounds.2.1⟩
    have hbehind : ∀ e ∈ edges (operandDrawing parent (id + t.size) ts),
        id + t.size ≤ e.1 ∨ e.1 = parent ∧ id + t.size ≤ e.2 := by
      intro e he
      rcases joins_operandDrawing (fun t _ id path => joins_drawing id path t) _ _ [] 0 e he with
        hjoins | ⟨hparent, q, j, hq, -⟩
      · exact Or.inl hjoins.bounds.1
      · exact Or.inr ⟨hparent, (List.mem_zipIdx hq).1⟩
    have hsize : 0 < t.size := by rw [size_eq]; omega
    rw [operandDrawing, edges_append, edges_edge, Ordered, List.pairwise_append, List.pairwise_cons]
    refine ⟨ht id, ⟨fun e he hfirst => ?_, ihts hts (by omega)⟩, fun e he e' he' hfirst => ?_⟩
    · have := hbehind e he
      omega
    · have := hbelow e he
      rcases List.mem_cons.1 he' with rfl | he'
      · omega
      · have := hbehind e' he'
        omega

/-- In the lines of a tree the edges from one node come with rising numbers. -/
theorem ordered_drawing (id : Nat) (t : Tree α) : Ordered (edges (drawing id t)) := by
  induction t using induction_operands generalizing id with
  | step t ih =>
    rw [drawing_eq, edges_node]
    exact ordered_operandDrawing ih (Nat.lt_succ_self id)

/-- The lines that are written for a tree show it. -/
theorem depicts_drawing (t : Tree α) : Depicts (drawing 0 t) t where
  ids := by rw [ids_drawing, List.range_eq_range']
  faces := faces_drawing 0 [] t
  children := children_drawing 0 t
  parents := fun e he => by
    obtain ⟨p, q, i, hp, hq, hpath⟩ := joins_drawing 0 [] t e he
    exact ⟨p, q, i, List.mem_zipIdx_iff_getElem?.1 hp, List.mem_zipIdx_iff_getElem?.1 hq, hpath⟩
  ordered := ordered_drawing 0 t

end Dot

end Fluxion

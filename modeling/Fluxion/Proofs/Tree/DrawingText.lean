import Fluxion.Proofs.Tree.Drawing
import Fluxion.Tree.Edit
import Mathlib.Data.List.Forall2

/-!
# Drawings are read back

The text of a drawing determines its lines (`Dot.document_injective`): a number ends at the first
character that is no digit, and a label at the first quote that no backslash stands before, so
whatever a label holds stays inside its quotes. The lines determine the tree up to what is not drawn
(`Dot.drawing_inj`): what follows the lines of a tree is an edge or nothing, while an operand starts
with a node. So a drawing shows its tree, and trees with the same drawing look the same
(`Tree.dot_faithful`).
-/

namespace Fluxion

variable {α : Type}

/-! ## Lines as text -/

/-- The outline that nodes of a sort are drawn with. -/
def NodeClass.outline : NodeClass → String
  | number => "ellipse"
  | name => "diamond"
  | operator => "box"

namespace Dot

/-- How a line is written. -/
def Line.text : Line → String
  | node id face =>
    "    " ++ nodeName id ++ " [label=\"" ++ escape face.1 ++ "\", shape=" ++ face.2.outline ++
      "];\n"
  | edge parent child => Dot.edge parent child

/-- The text of a whole drawing. -/
def document (lines : List Line) : String :=
  "digraph tree \x7b\n" ++ String.join (lines.map Line.text) ++ "\x7d\n"

section

open Fluxion.Tree

variable [Literal α]

/-- A node is declared with its label, in quotes, and the outline of its sort. -/
theorem text_node_face (id : Nat) (t : Tree α) : (Line.node id t.face).text = declaration id t := by
  rw [face_eq]
  cases t <;> rfl

/-- A tree is written with its own number first, and its operands with the next. -/
theorem write_eq_operands (next : Nat) (t : Tree α) :
    write next t = (declaration next t :: (writeOperands next (next + 1) t.operands).1,
      (writeOperands next (next + 1) t.operands).2) := by
  cases t <;> rfl

/-- Operands take as many numbers as they have nodes, one operand after another. -/
theorem writeOperands_eq {ts : List (Tree α)}
    (ih : ∀ t ∈ ts, ∀ next, write next t = ((drawing next t).map Line.text, next + t.size))
    (parent next : Nat) : writeOperands parent next ts =
      ((operandDrawing parent next ts).map Line.text, next + total (ts.map size)) := by
  induction ts generalizing next with
  | nil =>
    rw [writeOperands]
    rfl
  | cons t ts ihts =>
    obtain ⟨ht, hts⟩ := List.forall_mem_cons.1 ih
    rw [writeOperands, ht, ihts hts, operandDrawing, List.map_append, List.map_cons, List.map_cons,
      total, Nat.add_assoc]
    rfl

/-- The lines of a tree are written one after another, and take as many numbers as it has nodes. -/
theorem write_eq (next : Nat) (t : Tree α) :
    write next t = ((drawing next t).map Line.text, next + t.size) := by
  induction t using induction_operands generalizing next with
  | step t ih =>
    rw [write_eq_operands, writeOperands_eq ih, drawing_eq, List.map_cons, text_node_face, size_eq,
      Nat.add_assoc]

/-- What is written for a tree are the lines of its drawing. -/
theorem dot_eq (t : Tree α) : t.dot = document (drawing 0 t) := by
  rw [Tree.dot, write_eq]
  rfl

end

/-! ## Numbers and labels end where they seem to -/

section

variable {x y : List Char}

/-- No digit of a number is the first character of what stands behind its other digits. -/
theorem eq_nil_of_digits {n : Nat} {k l : List Char} (hn : Nat.toDigits 10 n = k ++ l)
    (hl : ∀ c ∈ (l ++ y).head?, c.isDigit = false) : l = [] := by
  cases l with
  | nil => rfl
  | cons c l =>
    have hmem : c ∈ Nat.toDigits 10 n := by
      rw [hn]
      exact List.mem_append_right _ List.mem_cons_self
    have hdigit : c.isDigit = true := Nat.isDigit_of_mem_toDigits (by decide) (by decide) hmem
    rw [hl c rfl] at hdigit
    cases hdigit

/-- A number ends at the first character that is no digit. -/
theorem digits_append_inj {m n : Nat} (hx : ∀ c ∈ x.head?, c.isDigit = false)
    (hy : ∀ c ∈ y.head?, c.isDigit = false)
    (h : Nat.toDigits 10 m ++ x = Nat.toDigits 10 n ++ y) : m = n ∧ x = y := by
  have hinj (heq : Nat.toDigits 10 m = Nat.toDigits 10 n) : m = n :=
    calc m = Nat.ofDigitChars 10 (Nat.toDigits 10 m) 0 := Nat.ofDigitChars_ten_toDigits.symm
      _ = Nat.ofDigitChars 10 (Nat.toDigits 10 n) 0 := by rw [heq]
      _ = n := Nat.ofDigitChars_ten_toDigits
  rcases List.append_eq_append_iff.1 h with ⟨l, hn, rfl⟩ | ⟨l, hm, rfl⟩
  · obtain rfl := eq_nil_of_digits hn hx
    exact ⟨hinj (by simpa using hn.symm), rfl⟩
  · obtain rfl := eq_nil_of_digits hm hy
    exact ⟨hinj (by simpa using hm), rfl⟩

/-- The characters that are written for one of a label. -/
def escapeChar (c : Char) : List Char := if c == '\\' || c == '"' then ['\\', c] else [c]

theorem toList_escape (label : String) :
    (escape label).toList = label.toList.flatMap escapeChar := String.toList_ofList

/-- A character is written as itself, unless it is a quote or a backslash. -/
theorem escapeChar_cases (c : Char) :
    escapeChar c = ['\\', c] ∨ escapeChar c = [c] ∧ c ≠ '\\' ∧ c ≠ '"' := by
  by_cases hc : (c == '\\' || c == '"') = true
  · exact Or.inl (if_pos hc)
  · exact Or.inr ⟨if_neg hc, by simpa using hc⟩

/-- No character of a label is written as a quote alone. -/
theorem escapeChar_append_ne (c : Char) : escapeChar c ++ x ≠ '"' :: y := by
  rcases escapeChar_cases c with h | ⟨h, -, hquote⟩
  · rw [h]
    rintro ⟨⟩
  · rw [h]
    intro heq
    exact hquote (List.cons.inj heq).1

/-- A backslash is never written for itself, so it tells how many characters belong together. -/
theorem escapeChar_append_inj {c d : Char} (h : escapeChar c ++ x = escapeChar d ++ y) :
    c = d ∧ x = y := by
  rcases escapeChar_cases c with hc | ⟨hc, hslash, -⟩ <;>
    rcases escapeChar_cases d with hd | ⟨hd, hslash', -⟩ <;> rw [hc, hd] at h
  · exact List.cons.inj (List.cons.inj h).2
  · exact absurd (List.cons.inj h).1.symm hslash'
  · exact absurd (List.cons.inj h).1 hslash
  · exact List.cons.inj h

/-- A label ends at the first quote that is not part of it. -/
theorem escape_append_inj {l l' : List Char}
    (h : l.flatMap escapeChar ++ (['"'] ++ x) = l'.flatMap escapeChar ++ (['"'] ++ y)) :
    l = l' ∧ x = y := by
  induction l generalizing l' with
  | nil =>
    cases l' with
    | nil => exact ⟨rfl, (List.cons.inj h).2⟩
    | cons d l' =>
      rw [List.flatMap_cons, List.append_assoc] at h
      exact absurd h.symm (escapeChar_append_ne d)
  | cons c l ih =>
    cases l' with
    | nil =>
      rw [List.flatMap_cons, List.append_assoc] at h
      exact absurd h (escapeChar_append_ne c)
    | cons d l' =>
      rw [List.flatMap_cons, List.flatMap_cons, List.append_assoc, List.append_assoc] at h
      obtain ⟨rfl, hrest⟩ := escapeChar_append_inj h
      obtain ⟨rfl, hend⟩ := ih hrest
      exact ⟨rfl, hend⟩

end

/-! ## The text determines the lines -/

theorem toList_nodeName (id : Nat) : (nodeName id).toList = 'n' :: Nat.toDigits 10 id := by
  show ("n" ++ id.repr).toList = _
  rw [String.toList_append, Nat.toList_repr]
  rfl

theorem toList_text_node (id : Nat) (face : String × NodeClass) : (Line.node id face).text.toList =
    [' ', ' ', ' ', ' ', 'n'] ++
      (Nat.toDigits 10 id ++ ([' ', '[', 'l', 'a', 'b', 'e', 'l', '=', '"'] ++
      (face.1.toList.flatMap escapeChar ++ (['"'] ++ ([',', ' ', 's', 'h', 'a', 'p', 'e', '='] ++
        (face.2.outline.toList ++ [']', ';', '\n'])))))) := by
  simp [Line.text, toList_nodeName, toList_escape]

theorem toList_text_edge (parent child : Nat) : (Line.edge parent child).text.toList =
    [' ', ' ', ' ', ' ', 'n'] ++ (Nat.toDigits 10 parent ++ ([' ', '-', '>', ' ', 'n'] ++
      (Nat.toDigits 10 child ++ [';', '\n']))) := by
  simp [Line.text, Dot.edge, toList_nodeName]

/-- The outlines of two sorts differ before either ends. -/
theorem outline_append_inj {c c' : NodeClass} {x y : List Char}
    (h : c.outline.toList ++ x = c'.outline.toList ++ y) : c = c' ∧ x = y := by
  cases c <;> cases c' <;> simp [NodeClass.outline] at h
  all_goals exact ⟨rfl, h⟩

/-- A line shows where it ends. -/
theorem text_append_inj {l l' : Line} {x y : List Char}
    (h : l.text.toList ++ x = l'.text.toList ++ y) : l = l' ∧ x = y := by
  cases l with
  | node id face =>
    cases l' with
    | node id' face' =>
      simp only [toList_text_node, List.append_assoc, List.append_cancel_left_eq] at h
      obtain ⟨rfl, hlabel⟩ := digits_append_inj (by simp) (by simp) h
      simp only [List.append_cancel_left_eq] at hlabel
      obtain ⟨hlabel, houtline⟩ := escape_append_inj hlabel
      simp only [List.append_cancel_left_eq] at houtline
      obtain ⟨hclass, hrest⟩ := outline_append_inj houtline
      exact ⟨congrArg _ (Prod.ext (String.toList_inj.1 hlabel) hclass),
        List.append_cancel_left hrest⟩
    | edge parent child =>
      -- the same number is followed by a bracket in one line and by an arrow in the other
      simp only [toList_text_node, toList_text_edge, List.append_assoc,
        List.append_cancel_left_eq] at h
      obtain ⟨rfl, hlabel⟩ := digits_append_inj (by simp) (by simp) h
      cases hlabel
  | edge parent child =>
    cases l' with
    | node id face =>
      simp only [toList_text_node, toList_text_edge, List.append_assoc,
        List.append_cancel_left_eq] at h
      obtain ⟨rfl, hlabel⟩ := digits_append_inj (by simp) (by simp) h
      cases hlabel
    | edge parent' child' =>
      simp only [toList_text_edge, List.append_assoc, List.append_cancel_left_eq] at h
      obtain ⟨rfl, hchild⟩ := digits_append_inj (by simp) (by simp) h
      simp only [List.append_cancel_left_eq] at hchild
      obtain ⟨rfl, hrest⟩ := digits_append_inj (by simp) (by simp) hchild
      exact ⟨rfl, List.append_cancel_left hrest⟩

/-- Every line starts with a blank, and the closing brace does not. -/
theorem head?_text (l : Line) : l.text.toList.head? = some ' ' := by
  cases l with
  | node id face => rw [toList_text_node]; rfl
  | edge parent child => rw [toList_text_edge]; rfl

theorem toList_document (ls : List Line) : (document ls).toList =
    "digraph tree \x7b\n".toList ++
      ((ls.map Line.text).flatMap String.toList ++ ['\x7d', '\n']) := by
  show ("digraph tree \x7b\n" ++ String.join (ls.map Line.text) ++ "\x7d\n").toList = _
  rw [String.toList_append, String.toList_append, String.toList_join, List.append_assoc]
  rfl

/-- The text tells the lines, whatever the labels are. -/
theorem document_injective : Function.Injective document := by
  intro ls ls' h
  replace h := congrArg String.toList h
  rw [toList_document, toList_document] at h
  replace h := List.append_cancel_left h
  -- line by line, as no line is the closing brace
  induction ls generalizing ls' with
  | nil =>
    cases ls' with
    | nil => rfl
    | cons l ls' =>
      replace h := congrArg List.head? h
      simp [head?_text] at h
  | cons l ls ih =>
    cases ls' with
    | nil =>
      replace h := congrArg List.head? h
      simp [head?_text] at h
    | cons l' ls' =>
      simp only [List.map_cons, List.flatMap_cons, List.append_assoc] at h
      obtain ⟨rfl, hrest⟩ := text_append_inj h
      rw [ih hrest]

end Dot

/-! ## The lines determine what is shown -/

namespace Tree

variable [Literal α] {t u : Tree α}

/-- The trees have the same places, and at each of them the same is shown. -/
def Resembles (t u : Tree α) : Prop :=
  ∀ path, (t.at? path).map face = (u.at? path).map face

/-- Trees look the same if their roots do and their operands one by one. -/
theorem Resembles.of_operands (hface : t.face = u.face)
    (h : List.Forall₂ Resembles t.operands u.operands) : t.Resembles u := by
  intro path
  cases path with
  | nil => exact congrArg some hface
  | cons i path =>
    rw [at?_cons, at?_cons]
    generalize t.operands = ts at h
    generalize u.operands = us at h
    induction h generalizing i with
    | nil => rfl
    | cons hfirst _ ih =>
      cases i with
      | zero => exact hfirst path
      | succ i => exact ih i

end Tree

namespace Dot

open Fluxion.Tree

variable [Literal α]

/-- No node is declared at the head of the lines. -/
def Closed (lines : List Line) : Prop := ∀ id face, lines.head? ≠ some (.node id face)

theorem closed_nil : Closed [] := by
  intro id face h
  cases h

theorem closed_edge (m n : Nat) (lines : List Line) : Closed (.edge m n :: lines) := by
  intro id face h
  cases h

/-- The lines of some operands tell how many there are and what each looks like, as an edge follows
each. -/
theorem operandDrawing_inj {ts us : List (Tree α)} {p p' id id' : Nat} {r s : List Line}
    (ih : ∀ t ∈ ts, ∀ (id id' : Nat) (r s : List Line) (u : Tree α), Closed r → Closed s →
      drawing id t ++ r = drawing id' u ++ s → t.Resembles u ∧ r = s)
    (hr : Closed r) (hs : Closed s)
    (h : operandDrawing p id ts ++ r = operandDrawing p' id' us ++ s) :
    List.Forall₂ Resembles ts us ∧ r = s := by
  induction ts generalizing us id id' with
  | nil =>
    cases us with
    | nil => exact ⟨.nil, h⟩
    | cons u us =>
      -- what follows the drawing does not start with a node
      refine absurd ?_ (hr id' u.face)
      rw [show r = _ from h, operandDrawing, drawing_eq]
      rfl
  | cons t ts ihts =>
    cases us with
    | nil =>
      refine absurd ?_ (hs id t.face)
      rw [← show _ = s from h, operandDrawing, drawing_eq]
      rfl
    | cons u us =>
      obtain ⟨ht, hts⟩ := List.forall_mem_cons.1 ih
      rw [operandDrawing, operandDrawing, List.append_assoc, List.append_assoc, List.cons_append,
        List.cons_append] at h
      obtain ⟨hfirst, hrest⟩ := ht _ _ _ _ u (closed_edge _ _ _) (closed_edge _ _ _) h
      obtain ⟨hothers, hend⟩ := ihts hts (List.cons.inj hrest).2
      exact ⟨.cons hfirst hothers, hend⟩

/-- What stands behind the lines of a tree shows where they end. -/
theorem drawing_inj {t u : Tree α} {id id' : Nat} {r s : List Line} (hr : Closed r) (hs : Closed s)
    (h : drawing id t ++ r = drawing id' u ++ s) : t.Resembles u ∧ r = s := by
  induction t using induction_operands generalizing id id' r s u with
  | step t ih =>
    rw [drawing_eq, drawing_eq, List.cons_append, List.cons_append] at h
    obtain ⟨hroot, hbelow⟩ := List.cons.inj h
    obtain ⟨hoperands, hend⟩ := operandDrawing_inj
      (fun t ht _ _ _ _ _ hr hs h => ih t ht hr hs h) hr hs hbelow
    exact ⟨.of_operands (Line.node.inj hroot).2 hoperands, hend⟩

end Dot

/-- A drawing shows its tree: its lines can be told from its text, and they declare the nodes in
pre-order and join each with its parent. Trees with the same drawing have the same shape, and at
each place the same label and the same sort of node. -/
theorem Tree.dot_faithful [Literal α] (t : Tree α) :
    (∃! lines, t.dot = Dot.document lines) ∧
    (∀ lines, t.dot = Dot.document lines → Dot.Depicts lines t) ∧
    ∀ u : Tree α, t.dot = u.dot → t.Resembles u := by
  refine ⟨⟨Dot.drawing 0 t, Dot.dot_eq t, fun lines h => ?_⟩, fun lines h => ?_, fun u h => ?_⟩
  · exact Dot.document_injective (h.symm.trans (Dot.dot_eq t))
  · rw [← Dot.document_injective ((Dot.dot_eq t).symm.trans h)]
    exact Dot.depicts_drawing t
  · rw [Dot.dot_eq, Dot.dot_eq] at h
    have hlines := Dot.document_injective h
    exact (Dot.drawing_inj Dot.closed_nil Dot.closed_nil (by rw [hlines])).1

end Fluxion

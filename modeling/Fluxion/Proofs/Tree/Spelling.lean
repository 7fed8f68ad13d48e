import Fluxion.Proofs.Token.Pieces
import Fluxion.Proofs.Tree.Shape
import Fluxion.Tree.SourceText

/-!
# How trees are spelled

The pieces that a tree is written with, operator by operator, and that no two words or numbers among
them stand side by side (`Shape.Expression.neat`, `Shape.Statement.neat`). So the text of a tree has
the tokens of its pieces, and nothing runs together.

Numbers are written and read outside of this development. What is asked of them is `Legible`.
-/

namespace Fluxion

/-- The numbers that are called finite are written as digits, with a point and digits after it
perhaps, and a minus sign in front perhaps, and these texts are read back as the numbers. -/
def Legible {α : Type} [Literal α] (finite : α → Prop) : Prop :=
  ∀ a, finite a →
    IsNumeral (Literal.text a) ∧ Literal.ofDigits (Literal.text a) = a ∨
      ∃ s, Literal.text a = "-" ++ s ∧ IsNumeral s ∧ Literal.negate (Literal.ofDigits s) = a

variable {α : Type} [Literal α]

/-- The pieces of a tree as it stands. -/
def Tree.pieces (t : Tree α) : List String := (Written.ofTree t).text

/-- The pieces of the statements that the operands of a tree are. -/
def Tree.blockPieces (t : Tree α) : List String := (Written.ofTree t).statements

/-- The text of a tree is that of its pieces in a row. -/
theorem Tree.text_eq (t : Tree α) : t.text.toList = t.pieces.flatMap String.toList :=
  String.toList_join

namespace Written

/-- The pieces of an operand, in parentheses where they are needed. -/
def operandPieces (op : Operator) (i : Nat) (t : Tree α) : List String :=
  if op.needsParens i t then inParens t.pieces else t.pieces

/-- Of some lists with a separator the first has none in front. -/
theorem intercalate_cons (sep x : List String) (xs : List (List String)) :
    sep.intercalate (x :: xs) = x ++ xs.flatMap (sep ++ ·) := by
  induction xs generalizing x with
  | nil => rw [List.intercalate_singleton, List.flatMap_nil, List.append_nil]
  | cons y ys ih =>
    rw [List.intercalate_cons_cons, ih, List.flatMap_cons, List.append_assoc, List.append_assoc]

/-- The operands are written one by one, each as its place asks. -/
theorem operandTexts_eq (op : Operator) (ts : List (Tree α)) :
    operandTexts op ts (ts.map Tree.pieces) = ts.mapIdx (operandPieces op) := by
  refine List.ext_getElem (by simp [operandTexts]) fun i h h' => ?_
  simp [operandTexts, operandPieces]

/-- Only the first operand of an arithmetic operator is told from the others. -/
theorem operandPieces_succ {op : NaryOp} (i : Nat) (t : Tree α) :
    operandPieces (.nary op) (i + 1) t = operandPieces (.nary op) 1 t := by
  cases op <;> simp [operandPieces, Operator.needsParens]

/-- Only the first operand of an operator has a place of its own. -/
theorem mapIdx_operandPieces {op : NaryOp} (t : Tree α) (ts : List (Tree α)) :
    (t :: ts).mapIdx (operandPieces (.nary op)) =
      operandPieces (.nary op) 0 t :: ts.map (operandPieces (.nary op) 1) := by
  rw [List.mapIdx_cons]
  refine congrArg _ (List.ext_getElem (by simp) fun i h h' => ?_)
  simp [operandPieces_succ]

end Written

namespace Tree

open Written

@[simp] theorem pieces_num (a : α) : (num a).pieces = [Literal.text a] := by
  simp [pieces, ofTree]

@[simp] theorem pieces_var (x : String) : (var x : Tree α).pieces = [x] := by
  simp [pieces, ofTree]

theorem pieces_node (op : Operator) (ts : List (Tree α)) :
    (node op ts).pieces = ofNode op ts (ts.map ofTree) := by
  rw [pieces, ofTree]

theorem blockPieces_node (op : Operator) (ts : List (Tree α)) :
    (node op ts).blockPieces = statementTexts ts (ts.map pieces) := by
  rw [blockPieces, ofTree, List.map_map]
  rfl

theorem map_text (ts : List (Tree α)) : (ts.map ofTree).map Written.text = ts.map pieces := by
  rw [List.map_map]
  rfl

theorem pieces_nary {op : NaryOp} (hop : op ≠ .pow) (t : Tree α) (ts : List (Tree α)) :
    (node (.nary op) (t :: ts)).pieces =
      operandPieces (.nary op) 0 t ++
        ts.flatMap fun u => op.sign :: operandPieces (.nary op) 1 u := by
  rw [pieces_node, ofNode]
  · rw [map_text, operandTexts_eq, mapIdx_operandPieces, intercalate_cons, List.flatMap_map]
    rfl
  · intro h
    cases h
    exact hop rfl

theorem pieces_pow (t u : Tree α) :
    (node (.nary .pow) [t, u]).pieces =
      operandPieces (.nary .pow) 0 t ++ "^" :: operandPieces (.nary .pow) 1 u := by
  rw [pieces_node, ofNode, map_text, operandTexts_eq, mapIdx_operandPieces]
  rfl

theorem pieces_relation (r : Relation) (t u : Tree α) :
    (node (.relation r) [t, u]).pieces =
      operandPieces (.relation r) 0 t ++ r.sign :: operandPieces (.relation r) 1 u := by
  rw [pieces_node, ofNode, map_text, operandTexts_eq]
  simp [List.intercalate, Operator.label]

/-- The value of an assignment is never in parentheses. -/
theorem pieces_assign (x : String) (t : Tree α) :
    (node .assign [var x, t]).pieces = x :: "=" :: t.pieces := by
  rw [pieces_node, ofNode, map_text, operandTexts_eq]
  simp [List.intercalate, Operator.label, operandPieces, Operator.needsParens, precedence,
    operator?]

theorem pieces_func (f : Func) (t : Tree α) :
    (node (.func f) [t]).pieces = f.name :: inParens t.pieces := by
  rw [pieces_node, ofNode, map_text]
  simp [listed, List.intercalate, Operator.label]

/-- A call is written with its arguments in parentheses, commas between them. -/
theorem pieces_call (name : String) (ts : List (Tree α)) :
    (node (.call name) ts).pieces = name :: inParens (listed "," (ts.map pieces)) := by
  rw [pieces_node, ofNode, map_text]
  rfl

/-- The pieces of a statement, with its semicolon. -/
def statementPieces (t : Tree α) : List String := statementText t t.pieces

/-- The pieces of statements in a row. -/
def sequencePieces (ts : List (Tree α)) : List String := [" "].intercalate (ts.map statementPieces)

/-- Statements are written one after another, with blanks between them. -/
theorem statementTexts_eq (ts : List (Tree α)) :
    statementTexts ts (ts.map pieces) = sequencePieces ts := by
  have h : (ts.zip (ts.map pieces)).map (fun operand => statementText operand.1 operand.2) =
      ts.map statementPieces :=
    List.ext_getElem (by simp) fun i h h' => by simp [statementPieces]
  rw [statementTexts, h, sequencePieces]

@[simp] theorem blockPieces_sequence (ts : List (Tree α)) :
    (node .sequence ts).blockPieces = sequencePieces ts := by
  rw [blockPieces_node, statementTexts_eq]

theorem pieces_sequence (ts : List (Tree α)) :
    (node .sequence ts).pieces = sequencePieces ts := by
  rw [pieces_node, ofNode, map_text, statementTexts_eq]

/-- What is returned is written in parentheses. -/
theorem pieces_giveBack (t : Tree α) :
    (node .giveBack [t]).pieces = "return" :: inParens t.pieces := by
  rw [pieces_node, ofNode, map_text]
  simp [listed, List.intercalate, Operator.label]

theorem pieces_ifThen (c : Tree α) (yes : List (Tree α)) :
    (node .ifElse [c, node .sequence yes]).pieces =
      "if" :: " " :: (inParens c.pieces ++ " " :: inBraces (sequencePieces yes)) := by
  rw [pieces_node, ← blockPieces_sequence]
  simp [ofNode, List.intercalate, pieces, blockPieces]

/-- The second block of an alternative is written behind its keyword. -/
theorem pieces_ifThenElse (c : Tree α) (yes no : List (Tree α)) :
    (node .ifElse [c, node .sequence yes, node .sequence no]).pieces =
      "if" :: " " :: (inParens c.pieces ++ " " :: (inBraces (sequencePieces yes) ++
        " " :: "else" :: " " :: inBraces (sequencePieces no))) := by
  rw [pieces_node, ← blockPieces_sequence, ← blockPieces_sequence]
  simp [ofNode, List.intercalate, pieces, blockPieces]

/-- The condition of a loop is written without parentheses. -/
theorem pieces_whileLoop (c : Tree α) (body : List (Tree α)) :
    (node .whileLoop [c, node .sequence body]).pieces =
      "while" :: " " :: (c.pieces ++ " " :: inBraces (sequencePieces body)) := by
  rw [pieces_node, ← blockPieces_sequence]
  simp [ofNode, withBlock, List.intercalate, pieces, blockPieces]

/-- The three parts of the head are written with semicolons between them. -/
theorem pieces_forLoop (first c step : Tree α) (body : List (Tree α)) :
    (node .forLoop [first, c, step, node .sequence body]).pieces =
      "for" :: " " :: (inParens (listed ";" [first.pieces, c.pieces, step.pieces]) ++
        " " :: inBraces (sequencePieces body)) := by
  rw [pieces_node, ← blockPieces_sequence]
  simp [ofNode, withBlock, pieces, blockPieces]

/-- A definition is written with its name, its parameters and its body. -/
theorem pieces_define (name : String) (parameters : List String) (body : List (Tree α)) :
    (node (.define name) (parameters.map var ++ [node .sequence body])).pieces =
      "function" :: " " :: name :: (inParens (listed "," (parameters.map fun x => [x])) ++
        " " :: inBraces (sequencePieces body)) := by
  have hnames : (parameters.map (var : String → Tree α)).map (Written.text ∘ ofTree) =
      parameters.map fun x => [x] := by
    rw [List.map_map]
    exact List.map_congr_left fun x _ => pieces_var x
  rw [pieces_node, ← blockPieces_sequence, ← hnames]
  simp [ofNode, withBlock, blockPieces]
  rfl

end Tree

/-! ## Neatness -/

theorem isMark_blank : IsMark " " := Or.inl rfl

/-- A piece of the character of a mark is a mark. -/
theorem isMark_char {p : String} (mark : Punct) (h : p.toList = [mark.char]) : IsMark p :=
  Or.inr ⟨mark, h⟩

/-- An operator is written with the mark that it is read from. -/
theorem NaryOp.sign_toList (op : NaryOp) : op.sign.toList = [op.mark.char] := by
  cases op <;> rfl

/-- A comparison is written with the mark that it is read from. -/
theorem Relation.sign_toList (r : Relation) : r.sign.toList = [r.mark.char] := by
  cases r <;> rfl

theorem Func.isName (f : Func) : IsName f.name := by
  cases f <;> exact ⟨⟨_, _, rfl, rfl, List.all_eq_true.1 rfl⟩, by decide, by decide⟩

theorem isItem_keyword (word : Keyword) : IsItem word.text := Or.inl word.isWord

theorem IsName.isItem {x : String} (h : IsName x) : IsItem x := Or.inl h.1

namespace Neat

variable {ps qs : List String} {p m : String} {items : List (List String)}

theorem single (h : IsItem p) : Neat [p] := .last h

/-- Parentheses keep what is in them from anything else. -/
theorem inParens (h : Neat ps) : Neat (Written.inParens ps) :=
  .mark (isMark_char .openParen rfl) (h.append_mark (isMark_char .closeParen rfl) .nil)

/-- Braces keep what is in them from anything else. -/
theorem inBraces (h : Neat ps) : Neat (Written.inBraces ps) := by
  refine .mark (isMark_char .openCurly rfl) (.mark isMark_blank ?_)
  exact h.append_mark isMark_blank (.mark (isMark_char .closeCurly rfl) .nil)

/-- Items with marks between any two. -/
theorem intercalate {sep : List String} (hm : IsMark m) (hsep : ∀ q ∈ sep, IsMark q)
    (h : ∀ x ∈ items, Neat x) : Neat ((m :: sep).intercalate items) := by
  -- a separator of more than one mark is put in mark by mark
  have hmarks : ∀ {qs : List String}, Neat qs → Neat (sep ++ qs) := by
    intro qs hqs
    induction sep with
    | nil => exact hqs
    | cons q sep ih =>
      exact .mark (hsep q List.mem_cons_self)
        (ih fun q' hq' => hsep q' (List.mem_cons_of_mem _ hq'))
  induction items with
  | nil => exact .nil
  | cons x xs ih =>
    cases xs with
    | nil =>
      rw [List.intercalate_singleton]
      exact h x List.mem_cons_self
    | cons y ys =>
      rw [List.intercalate_cons_cons, List.append_assoc]
      refine (h x List.mem_cons_self).append_mark hm (hmarks ?_)
      exact ih fun z hz => h z (List.mem_cons_of_mem _ hz)

/-- Items do not run together with marks between them. -/
theorem listed {sign : String} (hsign : IsMark sign) (h : ∀ x ∈ items, Neat x) :
    Neat (Written.listed sign items) :=
  intercalate hsign (by simp [isMark_blank]) h

/-- A word or a number in front of parentheses. -/
theorem item_inParens (hp : IsItem p) (h : Neat ps) : Neat (p :: Written.inParens ps) :=
  .item hp (isMark_char .openParen rfl) (h.append_mark (isMark_char .closeParen rfl) .nil)

end Neat

/-- The text of a legible number is an item, with a minus sign in front or without. -/
theorem Legible.isItem {finite : α → Prop} (h : Legible finite) {a : α} (ha : finite a) :
    IsItem (Literal.text a) := by
  rcases h a ha with ⟨hs, -⟩ | ⟨s, htext, hs, -⟩
  · exact Or.inr (Or.inl hs)
  · exact Or.inr (Or.inr ⟨s, htext, hs⟩)

/-- An operand is neat with parentheses and without. -/
theorem Neat.operandPieces {op : Operator} {i : Nat} {t : Tree α} (h : Neat t.pieces) :
    Neat (Written.operandPieces op i t) := by
  unfold Written.operandPieces
  split
  · exact h.inParens
  · exact h

namespace Shape

variable {finite : α → Prop}

/-- No two words or numbers stand side by side in the pieces of an expression. -/
theorem Expression.neat (hlegible : Legible finite) {t : Tree α} (h : Expression finite t) :
    Neat t.pieces := by
  induction h with
  | num ha =>
    rw [Tree.pieces_num]
    exact .last (hlegible.isItem ha)
  | var hx =>
    rw [Tree.pieces_var]
    exact .last hx.isItem
  | @nary op ts hop hlen _ ih =>
    obtain ⟨t, ts, rfl⟩ : ∃ t u, ts = t :: u :=
      List.exists_cons_of_ne_nil (by rintro rfl; simp at hlen)
    rw [Tree.pieces_nary hop]
    -- the pieces of a run are its operands with the sign between them
    have hitems : ∀ x ∈ Written.operandPieces (.nary op) 0 t ::
        ts.map (Written.operandPieces (.nary op) 1), Neat x := by
      intro x hx
      rcases List.mem_cons.1 hx with rfl | hx
      · exact (ih t List.mem_cons_self).operandPieces
      · obtain ⟨u, hu, rfl⟩ := List.mem_map.1 hx
        exact (ih u (List.mem_cons_of_mem _ hu)).operandPieces
    have hneat : Neat ([op.sign].intercalate (Written.operandPieces (.nary op) 0 t ::
        ts.map (Written.operandPieces (.nary op) 1))) :=
      .intercalate (isMark_char op.mark op.sign_toList) (by simp) hitems
    rw [Written.intercalate_cons, List.flatMap_map] at hneat
    exact hneat
  | pow _ _ ih ih' =>
    rw [Tree.pieces_pow]
    exact ih.operandPieces.append_mark (isMark_char .caret rfl) ih'.operandPieces
  | @relation r _ _ _ _ ih ih' =>
    rw [Tree.pieces_relation]
    exact ih.operandPieces.append_mark (isMark_char r.mark r.sign_toList) ih'.operandPieces
  | @func f _ _ ih =>
    rw [Tree.pieces_func]
    exact .item_inParens f.isName.isItem ih
  | assign hx _ ih =>
    rw [Tree.pieces_assign]
    exact .item hx.isItem (isMark_char .equals rfl) ih
  | call hname _ _ ih =>
    rw [Tree.pieces_call]
    refine .item_inParens hname.isItem (.listed (isMark_char .comma rfl) ?_)
    intro x hx
    obtain ⟨t, ht, rfl⟩ := List.mem_map.1 hx
    exact ih t ht

/-- Statements are written without a semicolon if they end in a block, else with one. -/
theorem neat_statementPieces {t : Tree α} (h : Neat t.pieces) : Neat t.statementPieces := by
  unfold Tree.statementPieces Written.statementText
  split
  · exact h
  · exact h.append_mark (isMark_char .semicolon rfl) .nil

/-- The semicolons keep statements apart. -/
theorem neat_sequencePieces {ts : List (Tree α)} (h : ∀ t ∈ ts, Neat t.pieces) :
    Neat (Tree.sequencePieces ts) := by
  refine Neat.intercalate isMark_blank (by simp) ?_
  intro x hx
  obtain ⟨t, ht, rfl⟩ := List.mem_map.1 hx
  exact neat_statementPieces (h t ht)

/-- No two words or numbers stand side by side in the pieces of a statement. Behind keywords there
are blanks. -/
theorem Statement.neat (hlegible : Legible finite) {t : Tree α} (h : Statement finite t) :
    Neat t.pieces := by
  induction h with
  | expression h => exact h.neat hlegible
  | giveBack h =>
    rw [Tree.pieces_giveBack]
    exact .item_inParens (isItem_keyword .returnKw) (h.neat hlegible)
  | ifThen hc _ ih =>
    rw [Tree.pieces_ifThen]
    refine .item (isItem_keyword .ifKw) isMark_blank ?_
    exact (hc.neat hlegible).inParens.append_mark isMark_blank (neat_sequencePieces ih).inBraces
  | ifThenElse hc _ _ ih ih' =>
    rw [Tree.pieces_ifThenElse]
    refine .item (isItem_keyword .ifKw) isMark_blank ?_
    refine (hc.neat hlegible).inParens.append_mark isMark_blank ?_
    refine (neat_sequencePieces ih).inBraces.append_mark isMark_blank ?_
    exact .item (isItem_keyword .elseKw) isMark_blank (neat_sequencePieces ih').inBraces
  | whileLoop hc _ ih =>
    rw [Tree.pieces_whileLoop]
    refine .item (isItem_keyword .whileKw) isMark_blank ?_
    exact (hc.neat hlegible).append_mark isMark_blank (neat_sequencePieces ih).inBraces
  | forLoop hfirst hc hstep _ ih =>
    rw [Tree.pieces_forLoop]
    refine .item (isItem_keyword .forKw) isMark_blank ?_
    refine Neat.append_mark ?_ isMark_blank (neat_sequencePieces ih).inBraces
    refine (Neat.listed (isMark_char .semicolon rfl) ?_).inParens
    simp [hfirst.neat hlegible, hc.neat hlegible, hstep.neat hlegible]

/-- No two words or numbers stand side by side in the pieces of a definition. -/
theorem Definition.neat (hlegible : Legible finite) {t : Tree α} (h : Definition finite t) :
    Neat t.pieces := by
  cases h with
  | @mk name parameters body hname hparameters hbody =>
    rw [Tree.pieces_define]
    have hnames : Neat (Written.listed "," (parameters.map fun x => [x])) := by
      refine .listed (isMark_char .comma rfl) ?_
      intro x hx
      obtain ⟨y, hy, rfl⟩ := List.mem_map.1 hx
      exact .last (hparameters y hy).isItem
    have hhead : Neat ("function" :: " " :: name ::
        Written.inParens (Written.listed "," (parameters.map fun x => [x]))) :=
      .item (isItem_keyword .functionKw) isMark_blank (.item_inParens hname.isItem hnames)
    have hbody' := neat_sequencePieces fun t ht => (hbody t ht).neat hlegible
    exact hhead.append_mark isMark_blank hbody'.inBraces

end Shape

end Fluxion

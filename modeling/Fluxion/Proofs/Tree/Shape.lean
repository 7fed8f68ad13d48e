import Fluxion.Proofs.Grammar.Acceptance

/-!
# The shape of trees

Which trees the grammar makes: how many operands each operator has, what stands for a name, and
where statements and definitions may occur. Every tree that is read from a text has this shape, if
its constants are finite (`Entry.shape_of_parse`). The grammar puts no bound on digits, so that a
text may well stand for a constant that is not.
-/

namespace Fluxion

/-- A letter and then letters and digits, not too many of them, and no keyword. -/
def IsName (x : String) : Prop :=
  IsWord x.toList ∧ x.utf8ByteSize ≤ maxNameBytes ∧ Keyword.ofText? x = none

/-- The constants of a tree from left to right. -/
def Tree.constants {α : Type} : Tree α → List α
  | num a => [a]
  | var _ => []
  | node _ ts => (ts.map constants).flatten

namespace Shape

variable {α : Type} (finite : α → Prop)

/-- The trees of expressions. -/
inductive Expression : Tree α → Prop
  | num {a : α} : finite a → Expression (.num a)
  | var {x : String} : IsName x → Expression (.var x)
  | nary {op : NaryOp} {ts : List (Tree α)} :
      op ≠ .pow → 2 ≤ ts.length → (∀ t ∈ ts, Expression t) → Expression (.node (.nary op) ts)
  | pow {t t' : Tree α} : Expression t → Expression t' → Expression (.node (.nary .pow) [t, t'])
  | relation {r : Relation} {t t' : Tree α} :
      Expression t → Expression t' → Expression (.node (.relation r) [t, t'])
  | func {f : Func} {t : Tree α} : Expression t → Expression (.node (.func f) [t])
  | assign {x : String} {t : Tree α} :
      IsName x → Expression t → Expression (.node .assign [.var x, t])
  | call {name : String} {ts : List (Tree α)} :
      IsName name → (∀ f : Func, name = f.name → ts.length ≠ 1) → (∀ t ∈ ts, Expression t) →
      Expression (.node (.call name) ts)

/-- The trees of statements. -/
inductive Statement : Tree α → Prop
  | expression {t : Tree α} : Expression finite t → Statement t
  | giveBack {t : Tree α} : Expression finite t → Statement (.node .giveBack [t])
  | ifThen {c : Tree α} {yes : List (Tree α)} :
      Expression finite c → (∀ t ∈ yes, Statement t) →
      Statement (.node .ifElse [c, .node .sequence yes])
  | ifThenElse {c : Tree α} {yes no : List (Tree α)} :
      Expression finite c → (∀ t ∈ yes, Statement t) → (∀ t ∈ no, Statement t) →
      Statement (.node .ifElse [c, .node .sequence yes, .node .sequence no])
  | whileLoop {c : Tree α} {body : List (Tree α)} :
      Expression finite c → (∀ t ∈ body, Statement t) →
      Statement (.node .whileLoop [c, .node .sequence body])
  | forLoop {first c step : Tree α} {body : List (Tree α)} :
      Expression finite first → Expression finite c → Expression finite step →
      (∀ t ∈ body, Statement t) →
      Statement (.node .forLoop [first, c, step, .node .sequence body])

/-- The trees of definitions. -/
inductive Definition : Tree α → Prop
  | mk {name : String} {parameters : List String} {body : List (Tree α)} :
      IsName name → (∀ x ∈ parameters, IsName x) → (∀ t ∈ body, Statement finite t) →
      Definition (.node (.define name) (parameters.map .var ++ [.node .sequence body]))

end Shape

/-- The trees that a text may be read as. -/
def Entry.Shape {α : Type} (finite : α → Prop) : Entry → Tree α → Prop
  | expression, t => Shape.Expression finite t
  | statements, t => ∃ ts, t = .node .sequence ts ∧ ∀ s ∈ ts, Shape.Statement finite s
  | program, t => ∃ ts, t = .node .sequence ts ∧ ∀ s ∈ ts, Shape.Definition finite s

/-- Every token is spelled as its class says. -/
def Lexed (w : List Token) : Prop := ∀ o ∈ w, o.kind.Spells o.text.toList

@[simp] theorem lexed_cons {o : Token} {w : List Token} :
    Lexed (o :: w) ↔ o.kind.Spells o.text.toList ∧ Lexed w := List.forall_mem_cons

@[simp] theorem lexed_append {w w' : List Token} : Lexed (w ++ w') ↔ Lexed w ∧ Lexed w' :=
  List.forall_mem_append

/-- An identifier that is spelled like a name is one that can be read again. -/
theorem Token.IsIdentifier.isName {o : Token} (h : o.IsIdentifier)
    (ho : o.kind.Spells o.text.toList) : IsName o.text := by
  rw [h.1] at ho
  obtain ⟨hword, hnone⟩ := ho
  rw [String.ofList_toList] at hnone
  exact ⟨hword, h.2, hnone⟩

/-- All constants of a tree are finite. -/
def Tree.IsFinite {α : Type} (finite : α → Prop) (t : Tree α) : Prop := ∀ a ∈ t.constants, finite a

section Finite

variable {α : Type} {finite : α → Prop}

@[simp] theorem Tree.isFinite_num {a : α} : (num a).IsFinite finite ↔ finite a := by
  simp [IsFinite, constants]

@[simp] theorem Tree.isFinite_node {op : Operator} {ts : List (Tree α)} :
    (node op ts).IsFinite finite ↔ ∀ t ∈ ts, t.IsFinite finite := by
  simp only [IsFinite, constants, List.mem_flatten, List.mem_map]
  constructor
  · intro h t ht a ha
    exact h a ⟨t.constants, ⟨t, ht, rfl⟩, ha⟩
  · rintro h a ⟨_, ⟨t, ht, rfl⟩, ha⟩
    exact h t ht a ha

/-- A run of one operator is extended by another operand. -/
theorem Shape.Expression.extend {op : NaryOp} {ts : List (Tree α)} {t : Tree α}
    (h : Shape.Expression finite (.node (.nary op) ts)) (hop : op ≠ .pow)
    (ht : Shape.Expression finite t) : Shape.Expression finite (.node (.nary op) (ts ++ [t])) := by
  cases h with
  | nary _ hlen hts =>
    refine .nary hop (by rw [List.length_append]; omega) ?_
    intro t' ht'
    rcases List.mem_append.1 ht' with ht' | ht'
    · exact hts t' ht'
    · rw [List.mem_singleton.1 ht']
      exact ht
  | pow => exact (hop rfl).elim

/-- Two expressions under an operator other than the power are an expression. -/
theorem Shape.Expression.pair {op : NaryOp} {t t' : Tree α} (hop : op ≠ .pow)
    (h : Shape.Expression finite t) (h' : Shape.Expression finite t') :
    Shape.Expression finite (.node (.nary op) [t, t']) :=
  .nary hop (Nat.le_refl 2) (by simp [h, h'])

/-- What is read before an operator of a chain and the operand after it make a run of the operator,
or longer one, whatever the level. -/
theorem Shape.Expression.extend_lexed {op : NaryOp} {o : Token} {w w' : List Token}
    {ts : List (Tree α)} {t : Tree α} (hop : op ≠ .pow)
    (h : Lexed w → (Tree.node (.nary op) ts).IsFinite finite →
      Shape.Expression finite (.node (.nary op) ts))
    (h' : Lexed w' → t.IsFinite finite → Shape.Expression finite t) (hw : Lexed (w ++ o :: w'))
    (ht : (Tree.node (.nary op) (ts ++ [t])).IsFinite finite) :
    Shape.Expression finite (.node (.nary op) (ts ++ [t])) := by
  simp only [lexed_append, lexed_cons] at hw
  rw [Tree.isFinite_node, List.forall_mem_append] at ht
  have hts := h hw.1 (Tree.isFinite_node.2 ht.1)
  exact hts.extend hop (h' hw.2.2 (ht.2 _ List.mem_cons_self))

/-- The same where the operands are known to be expressions if their tokens and constants allow it.
-/
theorem Shape.Expression.pair_lexed {op : NaryOp} {o : Token} {w w' : List Token} {t t' : Tree α}
    (hop : op ≠ .pow) (h : Lexed w → t.IsFinite finite → Shape.Expression finite t)
    (h' : Lexed w' → t'.IsFinite finite → Shape.Expression finite t') (hw : Lexed (w ++ o :: w'))
    (ht : (Tree.node (.nary op) [t, t']).IsFinite finite) :
    Shape.Expression finite (.node (.nary op) [t, t']) := by
  simp only [lexed_append, lexed_cons] at hw
  simp only [Tree.isFinite_node, List.forall_mem_cons] at ht
  exact .pair hop (h hw.1 ht.1) (h' hw.2.2 ht.2.1)

end Finite

end Fluxion

namespace Fluxion.Phrase

-- Along the derivation, which puts the trees together.
mutual

/-- What is read as an expression is one, if its tokens are spelled as they should be and its
constants finite. -/
theorem Expression.shape {α : Type} [Literal α] {finite : α → Prop} {w : List Token} {t : Tree α} :
    Expression w t → Lexed w → t.IsFinite finite → Shape.Expression finite t
  | .sum h, hw, ht => h.shape hw ht
  | .comparison h _ h', hw, ht => by
    simp only [lexed_append, lexed_cons] at hw
    simp only [Tree.isFinite_node, List.forall_mem_cons] at ht
    exact .relation (h.shape hw.1 ht.1) (h'.shape hw.2.2 ht.2.1)

/-- A sum grows by operands, or becomes the first operand of another operator. -/
theorem Sum.shape {α : Type} [Literal α] {finite : α → Prop} {last : Option NaryOp}
    {w : List Token} {t : Tree α} :
    Sum last w t → Lexed w → t.IsFinite finite → Shape.Expression finite t
  | .single h, hw, ht => h.shape hw ht
  | .extend hop h _ h', hw, ht => .extend_lexed (ne_pow_of_additive hop) h.shape h'.shape hw ht
  | .wrap hop h _ _ h', hw, ht => .pair_lexed (ne_pow_of_additive hop) h.shape h'.shape hw ht

/-- A product grows by operands, or becomes the first operand of another operator. -/
theorem Product.shape {α : Type} [Literal α] {finite : α → Prop} {last : Option NaryOp}
    {w : List Token} {t : Tree α} :
    Product last w t → Lexed w → t.IsFinite finite → Shape.Expression finite t
  | .single h, hw, ht => h.shape hw ht
  | .extend hop h _ h', hw, ht =>
      .extend_lexed (ne_pow_of_multiplicative hop) h.shape h'.shape hw ht
  | .wrap hop h _ _ h', hw, ht => .pair_lexed (ne_pow_of_multiplicative hop) h.shape h'.shape hw ht

theorem Power.shape {α : Type} [Literal α] {finite : α → Prop} {w : List Token} {t : Tree α} :
    Power w t → Lexed w → t.IsFinite finite → Shape.Expression finite t
  | .part h, hw, ht => h.shape hw ht
  | .raised h _ h', hw, ht => by
    simp only [lexed_append, lexed_cons] at hw
    simp only [Tree.isFinite_node, List.forall_mem_cons] at ht
    exact .pow (h.shape hw.1 ht.1) (h'.shape hw.2.2 ht.2.1)

/-- Each alternative of a part makes a tree of an expression. -/
theorem Part.shape {α : Type} [Literal α] {finite : α → Prop} {w : List Token} {t : Tree α} :
    Part w t → Lexed w → t.IsFinite finite → Shape.Expression finite t
  | .parenthesized _ h _, hw, ht => by
    simp only [lexed_append, lexed_cons] at hw
    exact h.shape hw.2.1 ht
  | .assignment hname _ h, hw, ht => by
    simp only [lexed_cons] at hw
    simp only [Tree.isFinite_node, List.forall_mem_cons] at ht
    exact .assign (hname.isName hw.1) (h.shape hw.2.2 ht.2.1)
  | .number _, _, ht => .num (Tree.isFinite_num.1 ht)
  | .func hname _ h, hw, ht => by
    simp only [lexed_cons] at hw
    rw [Tree.isFinite_node] at ht
    exact .func (h.shape hw.2 ht _ List.mem_cons_self)
  | .call hname hlen h, hw, ht => by
    simp only [lexed_cons] at hw
    rw [Tree.isFinite_node] at ht
    exact .call (hname.isName hw.1) hlen (h.shape hw.2 ht)
  | .name hname, hw, _ => by
    simp only [lexed_cons] at hw
    exact .var (hname.isName hw.1)

theorem Arguments.shape {α : Type} [Literal α] {finite : α → Prop} {w : List Token}
    {ts : List (Tree α)} : Arguments w ts → Lexed w → (∀ t ∈ ts, t.IsFinite finite) →
    ∀ t ∈ ts, Shape.Expression finite t
  | .none _ _, _, _ => by simp
  | .some _ h h' _, hw, ht => by
    simp only [lexed_append, lexed_cons] at hw
    rw [List.forall_mem_cons] at ht ⊢
    exact ⟨h.shape hw.2.1.1 ht.1, h'.shape hw.2.1.2 ht.2⟩

/-- The arguments are expressions one by one. -/
theorem MoreArguments.shape {α : Type} [Literal α] {finite : α → Prop} {w : List Token}
    {ts : List (Tree α)} : MoreArguments w ts → Lexed w → (∀ t ∈ ts, t.IsFinite finite) →
    ∀ t ∈ ts, Shape.Expression finite t
  | .nil, _, _ => by simp
  | .cons _ h h', hw, ht => by
    simp only [lexed_append, lexed_cons] at hw
    rw [List.forall_mem_cons] at ht ⊢
    exact ⟨h.shape hw.2.1 ht.1, h'.shape hw.2.2 ht.2⟩

end

mutual

/-- What is read as a statement is one, with the blocks within it. -/
theorem Statement.shape {α : Type} [Literal α] {finite : α → Prop} {w : List Token} {t : Tree α} :
    Statement w t → Lexed w → t.IsFinite finite → Shape.Statement finite t
  | .ifThen _ _ hc _ hyes, hw, ht => by
    simp only [lexed_append, lexed_cons] at hw
    simp only [Tree.isFinite_node, List.forall_mem_cons] at ht
    obtain ⟨yes, rfl, hshape⟩ := hyes.shape hw.2.2.2.2 ht.2.1
    exact .ifThen (hc.shape hw.2.2.1 ht.1) hshape
  | .ifThenElse _ _ hc _ hyes _ hno, hw, ht => by
    simp only [lexed_append, lexed_cons] at hw
    simp only [Tree.isFinite_node, List.forall_mem_cons] at ht
    obtain ⟨yes, rfl, hshape⟩ := hyes.shape hw.2.2.2.2.1 ht.2.1
    obtain ⟨no, rfl, hshape'⟩ := hno.shape hw.2.2.2.2.2.2 ht.2.2.1
    exact .ifThenElse (hc.shape hw.2.2.1 ht.1) hshape hshape'
  | .whileLoop _ hc hbody, hw, ht => by
    simp only [lexed_append, lexed_cons] at hw
    simp only [Tree.isFinite_node, List.forall_mem_cons] at ht
    obtain ⟨body, rfl, hshape⟩ := hbody.shape hw.2.2 ht.2.1
    exact .whileLoop (hc.shape hw.2.1 ht.1) hshape
  | .giveBack _ _ h _ _, hw, ht => by
    simp only [lexed_append, lexed_cons] at hw
    simp only [Tree.isFinite_node, List.forall_mem_cons] at ht
    exact .giveBack (h.shape hw.2.2.1 ht.1)
  | .forLoop _ _ hfirst _ hc _ hstep _ hbody, hw, ht => by
    simp only [lexed_append, lexed_cons] at hw
    simp only [Tree.isFinite_node, List.forall_mem_cons] at ht
    obtain ⟨-, -, hfirstw, -, hcw, -, hstepw, -, hbodyw⟩ := hw
    obtain ⟨body, rfl, hshape⟩ := hbody.shape hbodyw ht.2.2.2.1
    exact .forLoop (hfirst.shape hfirstw ht.1) (hc.shape hcw ht.2.1) (hstep.shape hstepw ht.2.2.1)
      hshape
  | .expression h _, hw, ht => .expression (h.shape (lexed_append.1 hw).1 ht)

theorem Block.shape {α : Type} [Literal α] {finite : α → Prop} {w : List Token} {t : Tree α} :
    Block w t → Lexed w → t.IsFinite finite →
      ∃ ts, t = .node .sequence ts ∧ ∀ s ∈ ts, Shape.Statement finite s
  | .mk _ h _, hw, ht => by
    simp only [lexed_append, lexed_cons] at hw
    exact ⟨_, rfl, h.shape hw.2.1 (Tree.isFinite_node.1 ht)⟩

theorem Sequence.shape {α : Type} [Literal α] {finite : α → Prop} {w : List Token}
    {ts : List (Tree α)} : Sequence w ts → Lexed w → (∀ t ∈ ts, t.IsFinite finite) →
    ∀ t ∈ ts, Shape.Statement finite t
  | .nil, _, _ => by simp
  | .cons h h', hw, ht => by
    rw [lexed_append] at hw
    rw [List.forall_mem_cons] at ht ⊢
    exact ⟨h.shape hw.1 ht.1, h'.shape hw.2 ht.2⟩

end

theorem MoreParameters.names {w names : List Token} (h : MoreParameters w names) (hw : Lexed w) :
    ∀ o ∈ names, IsName o.text := by
  induction h with
  | nil => simp
  | cons _ hname _ ih =>
    simp only [lexed_cons] at hw
    rw [List.forall_mem_cons]
    exact ⟨hname.isName hw.2.1, ih hw.2.2⟩

theorem Parameters.names {w names : List Token} (h : Parameters w names) (hw : Lexed w) :
    ∀ o ∈ names, IsName o.text := by
  cases h with
  | none => simp
  | some _ hname hmore _ =>
    simp only [lexed_append, lexed_cons] at hw
    rw [List.forall_mem_cons]
    exact ⟨hname.isName hw.2.1, hmore.names hw.2.2.1⟩

variable {α : Type} [Literal α] {finite : α → Prop}

/-- What is read as a definition is one, with names for the function and its parameters. -/
theorem Definition.shape {w : List Token} {t : Tree α} (h : Definition w t) (hw : Lexed w)
    (ht : t.IsFinite finite) : Shape.Definition finite t := by
  cases h with
  | @mk _ name _ _ names _ _ hname hparameters hbody =>
    simp only [lexed_append, lexed_cons] at hw
    rw [Tree.isFinite_node] at ht
    obtain ⟨body, rfl, hshape⟩ := hbody.shape hw.2.2.2 (ht _ (by simp))
    rw [show names.map (fun n => Tree.var (α := α) n.text) =
      (names.map Token.text).map .var by simp]
    refine .mk (hname.isName hw.2.1) ?_ hshape
    intro x hx
    obtain ⟨o, ho, rfl⟩ := List.mem_map.1 hx
    exact hparameters.names hw.2.2.1 o ho

theorem Program.shape {w : List Token} {ts : List (Tree α)} (h : Program w ts) (hw : Lexed w)
    (ht : ∀ t ∈ ts, t.IsFinite finite) : ∀ t ∈ ts, Shape.Definition finite t := by
  induction h with
  | nil => simp
  | cons h _ ih =>
    rw [lexed_append] at hw
    rw [List.forall_mem_cons] at ht ⊢
    exact ⟨h.shape hw.1 ht.1, ih hw.2 ht.2⟩

end Fluxion.Phrase

namespace Fluxion

/-- The tokens of a text are spelled as their classes say. -/
theorem Token.lexed_beforeEnd (text : String) : Lexed (Token.beforeEnd text) := by
  intro o ho
  exact Token.spells_of_mem_significant ((List.takeWhile_subset _) ho)

/-- What is read from a text has the shape of its entry, if its constants are finite. -/
theorem Entry.shape_of_parse {α : Type} [Literal α] {finite : α → Prop} {entry : Entry}
    {text : String} {t : Tree α} (h : entry.parse text = .ok t) (ht : t.IsFinite finite) :
    entry.Shape finite t := by
  have hw := Token.lexed_beforeEnd text
  have hsentence := (sentence_of_parse h).2
  cases entry with
  | expression => exact Phrase.Expression.shape hsentence hw ht
  | statements =>
    obtain ⟨ts, hts, rfl⟩ := hsentence
    exact ⟨ts, rfl, hts.shape hw (Tree.isFinite_node.1 ht)⟩
  | program =>
    obtain ⟨ts, hts, rfl⟩ := hsentence
    exact ⟨ts, rfl, hts.shape hw (Tree.isFinite_node.1 ht)⟩

end Fluxion

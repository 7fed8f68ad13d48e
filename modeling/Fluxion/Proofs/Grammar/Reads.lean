import Fluxion.Proofs.Grammar.Lexical

/-!
# What is read is a phrase

A parser reads a class of phrases if every value that it yields comes with such a phrase, taken from
the front of the tokens. The parsers for expressions and statements read phrases of the grammar as
soon as the parser that they call for what is nested does, and a parser that is tied to itself
inherits this from its body. So a text is never accepted unless it is a sentence, and the tree read
is the tree of that sentence.
-/

namespace Fluxion

/-- No two operators are written with one mark. -/
theorem NaryOp.mark_inj {op op' : NaryOp} (h : op.mark = op'.mark) : op = op' := by
  cases op <;> cases op' <;> first | rfl | cases h

theorem Relation.mark_inj {r r' : Relation} (h : r.mark = r'.mark) : r = r' := by
  cases r <;> cases r' <;> first | rfl | cases h

end Fluxion

namespace Fluxion.Grammar

open Fluxion.Parser

/-- Whatever the parser yields stands for a phrase at the front of the tokens. -/
def Reads {β : Type} (phrase : List Token → β → Prop) (p : Parser β) : Prop :=
  ∀ {ts rest : List Token} {b : β}, Yields p ts b rest → ∃ w, ts = w ++ rest ∧ phrase w b

/-- Phrases in a row. -/
inductive Repeated {β : Type} (phrase : List Token → β → Prop) : List Token → List β → Prop
  | nil : Repeated phrase [] []
  | cons {w w' : List Token} {b : β} {bs : List β} :
      phrase w b → Repeated phrase w' bs → Repeated phrase (w ++ w') (b :: bs)

section Combinators

variable {β γ : Type} {phrase : List Token → β → Prop} {p : Parser β}

theorem Reads.many (h : Reads phrase p) : Reads (Repeated phrase) (Parser.many p) := by
  intro ts rest bs hy
  induction hlen : ts.length using Nat.strongRecOn generalizing ts bs with
  | ind n ih =>
    subst hlen
    rcases hy.many_cases with ⟨rfl, rfl⟩ | ⟨b, mid, more, rfl, hb, hmore⟩
    · exact ⟨[], rfl, .nil⟩
    · obtain ⟨w, rfl, hw⟩ := h hb
      rcases hmore with ⟨hlt, hmore⟩ | ⟨rfl, rfl⟩
      · obtain ⟨w', rfl, hw'⟩ := ih _ hlt hmore rfl
        exact ⟨w ++ w', (List.append_assoc ..).symm, .cons hw hw'⟩
      · exact ⟨w ++ [], by rw [List.append_nil], .cons hw .nil⟩

/-- A parser tied to itself reads what its body reads. -/
theorem Reads.fix {body : Parser β → Parser β}
    (h : ∀ q : Parser β, Reads phrase q → Reads phrase (body q)) :
    Reads phrase (Parser.fix body) := by
  intro ts rest b hy
  induction hlen : ts.length using Nat.strongRecOn generalizing ts rest b with
  | ind n ih =>
    subst hlen
    obtain ⟨fs, hy⟩ := hy
    rw [fix_apply] at hy
    refine h _ ?_ ⟨fs, hy⟩
    intro us rest' b' hq
    obtain ⟨hlt, hq⟩ := yields_within.1 hq
    exact ih _ hlt hq rfl

/-- Values with commas between them: either there are none, or a first one and then more, each after
a comma. -/
theorem Reads.separated (h : Reads phrase p) {ts rest : List Token} {bs : List β}
    (hy : Yields (Parser.separated (punct .comma) p) ts bs rest) :
    bs = [] ∧ rest = ts ∨ ∃ b more w w', bs = b :: more ∧ ts = w ++ (w' ++ rest) ∧ phrase w b ∧
      Repeated (fun v c => ∃ o v', v = o :: v' ∧ o.kind = .punct .comma ∧ phrase v' c) w' more := by
  rw [Parser.separated, yields_bind] at hy
  obtain ⟨first, mid, hfirst, hy⟩ := hy
  cases first with
  | none =>
    obtain ⟨rfl, rfl⟩ := yields_pure.1 hy
    exact Or.inl ⟨rfl, (yields_optional_none.1 hfirst).2⟩
  | some b =>
    obtain ⟨w, rfl, hw⟩ := h (yields_optional_some.1 hfirst)
    simp only [yields_bind, yields_pure] at hy
    obtain ⟨more, mid', hmore, rfl, rfl⟩ := hy
    -- each further item is read behind a comma of its own
    have item : Reads (fun v c => ∃ o v', v = o :: v' ∧ o.kind = .punct .comma ∧ phrase v' c)
        (Parser.attempt (punct .comma) >>= fun _ => p) := by
      intro us rest' c hc
      simp only [yields_bind, yields_attempt, yields_punct] at hc
      obtain ⟨o, us', ⟨rfl, hkind⟩, hc⟩ := hc
      obtain ⟨v, rfl, hv⟩ := h hc
      exact ⟨o :: v, rfl, o, v, rfl, hkind, hv⟩
    obtain ⟨w', rfl, hw'⟩ := item.many hmore
    exact Or.inr ⟨b, more, w, w', rfl, rfl, hw, hw'⟩

end Combinators

/-! ## Expressions -/

section Expressions

variable {α : Type}

open Phrase

section Marks

variable {β : Type} {mark : β → Punct} {operators : List β} {b : β} {o o' : Token}

/-- The token is the mark of the operator that is found. -/
theorem kind_of_marked? (h : marked? mark operators o = some b) : o.kind = .punct (mark b) := by
  have hkind := List.find?_some h
  exact of_decide_eq_true hkind

/-- A token is taken for an operator of the level exactly if it is its mark. -/
theorem marked?_eq_some_iff (hmark : ∀ {b b'}, mark b = mark b' → b = b') :
    marked? mark operators o = some b ↔ b ∈ operators ∧ o.kind = .punct (mark b) := by
  constructor
  · intro h
    exact ⟨List.mem_of_find?_eq_some h, kind_of_marked? h⟩
  · rintro ⟨hb, ho⟩
    obtain ⟨b', h⟩ : ∃ b', marked? mark operators o = some b' :=
      Option.isSome_iff_exists.1 (List.find?_isSome.2 ⟨b, hb, decide_eq_true ho⟩)
    rw [h, hmark (Kind.punct.inj ((kind_of_marked? h).symm.trans ho))]

/-- A token that is the mark of none of the operators stands for none. -/
theorem marked?_eq_none (h : ∀ b ∈ operators, o.kind ≠ .punct (mark b)) :
    marked? mark operators o = none :=
  List.find?_eq_none.2 fun b hb hkind => h b hb (of_decide_eq_true hkind)

/-- What a token is taken for depends on its kind alone. -/
theorem marked?_congr (h : o.kind = o'.kind) :
    marked? mark operators o = marked? mark operators o' := by
  rw [marked?, marked?, h]

end Marks

/-- An operator of sums is `+` or `-`, and the token is its mark. -/
theorem additive?_eq_some {o : Token} {op : NaryOp} (h : additive? o = some op) :
    (op = .add ∨ op = .sub) ∧ o.kind = .punct op.mark := by
  simpa using (marked?_eq_some_iff NaryOp.mark_inj).1 h

/-- An operator of products is `*` or `/`, and the token is its mark. -/
theorem multiplicative?_eq_some {o : Token} {op : NaryOp} (h : multiplicative? o = some op) :
    (op = .mul ∨ op = .div) ∧ o.kind = .punct op.mark := by
  simpa using (marked?_eq_some_iff NaryOp.mark_inj).1 h

theorem relation?_eq_some {o : Token} {r : Relation} (h : relation? o = some r) :
    o.kind = .punct r.mark :=
  kind_of_marked? h

/-- Every comparison is taken by its mark. -/
theorem relation?_of_mark {o : Token} {r : Relation} (h : o.kind = .punct r.mark) :
    relation? o = some r := by
  refine (marked?_eq_some_iff Relation.mark_inj).2 ⟨?_, h⟩
  cases r <;> decide

/-- A class of phrases that grow by an operator and an operand: a run of one operator is extended,
and another operator wraps what stands before it. -/
structure Grows (isOp : Token → NaryOp → Prop) (operand : List Token → Tree α → Prop)
    (phrase : Option NaryOp → List Token → Tree α → Prop) : Prop where
  single : ∀ {w : List Token} {t : Tree α}, operand w t → phrase none w t
  extend : ∀ {op : NaryOp} {o : Token} {w w' : List Token} {ts : List (Tree α)} {t : Tree α},
    phrase (some op) w (.node (.nary op) ts) → isOp o op → operand w' t →
    phrase (some op) (w ++ o :: w') (.node (.nary op) (ts ++ [t]))
  wrap : ∀ {op : NaryOp} {last : Option NaryOp} {o : Token} {w w' : List Token} {t t' : Tree α},
    phrase last w t → last ≠ some op → isOp o op → operand w' t' →
    phrase (some op) (w ++ o :: w') (.node (.nary op) [t, t'])

/-- Sums grow as the grammar says, with products for operands. -/
theorem sum_grows [Literal α] :
    Grows (α := α) (fun o op => (op = .add ∨ op = .sub) ∧ o.kind = .punct op.mark)
    (fun w t => ∃ last, Product last w t) Sum where
  single := by
    rintro w t ⟨last, h⟩
    exact .single h
  extend := by
    rintro op o w w' ts t h ⟨hop, ho⟩ ⟨last, h'⟩
    exact .extend hop h ho h'
  wrap := by
    rintro op last o w w' t t' h hne ⟨hop, ho⟩ ⟨last', h'⟩
    exact .wrap hop h hne ho h'

/-- Products grow as the grammar says, with powers for operands. -/
theorem product_grows [Literal α] :
    Grows (α := α) (fun o op => (op = .mul ∨ op = .div) ∧
      o.kind = .punct op.mark) Power Product where
  single := .single
  extend h ho h' := .extend ho.1 h ho.2 h'
  wrap h hne ho h' := .wrap ho.1 h hne ho.2 h'

variable {isOp : Token → NaryOp → Prop} {operand : List Token → Tree α → Prop}
variable {phrase : Option NaryOp → List Token → Tree α → Prop}

/-- The phrase of an operator and an operand after it. -/
def Operation (isOp : Token → NaryOp → Prop) (operand : List Token → Tree α → Prop)
    (w : List Token) (item : NaryOp × Tree α) : Prop :=
  ∃ o w', w = o :: w' ∧ isOp o item.1 ∧ operand w' item.2

/-- From a node with an operator at the end on, whatever follows is grouped as the grammar says. -/
theorem Grows.extend_all (h : Grows isOp operand phrase) {op : NaryOp} {w w' : List Token}
    {ts : List (Tree α)} {items : List (NaryOp × Tree α)}
    (hw : phrase (some op) w (.node (.nary op) ts))
    (hw' : Repeated (Operation isOp operand) w' items) :
    ∃ last, phrase last (w ++ w') (Grammar.extend op ts items) := by
  induction hw' generalizing op w ts with
  | nil =>
    rw [List.append_nil]
    exact ⟨_, hw⟩
  | @cons v v' item items hitem _ ih =>
    obtain ⟨next, t⟩ := item
    obtain ⟨o, u, rfl, ho, hu⟩ := hitem
    rw [← List.append_assoc, Grammar.extend]
    -- the same operator takes one operand more, another one a new level around
    by_cases heq : next = op
    · rw [if_pos heq]
      subst heq
      exact ih (h.extend hw ho hu)
    · rw [if_neg heq]
      refine ih (h.wrap hw ?_ ho hu)
      intro hsome
      cases hsome
      exact heq rfl

/-- The tree of a chain is the tree of its phrase. -/
theorem Grows.grouped (h : Grows isOp operand phrase) {w w' : List Token} {t : Tree α}
    {items : List (NaryOp × Tree α)} (hw : operand w t)
    (hw' : Repeated (Operation isOp operand) w' items) :
    ∃ last, phrase last (w ++ w') (Grammar.grouped t items) := by
  cases hw' with
  | nil =>
    rw [List.append_nil]
    exact ⟨none, h.single hw⟩
  | @cons v v' item items hitem hitems =>
    obtain ⟨op, t'⟩ := item
    obtain ⟨o, u, rfl, ho, hu⟩ := hitem
    rw [← List.append_assoc]
    exact h.extend_all (h.wrap (h.single hw) (by simp) ho hu) hitems

/-- Operands with operators between them are a phrase of any level that grows like that. -/
theorem reads_chain (h : Grows isOp operand phrase) {expected : Expectation}
    {op? : Token → Option NaryOp} (hop : ∀ {o op}, op? o = some op → isOp o op)
    {p : Parser (Tree α)} (hp : Reads operand p) :
    Reads (fun w t => ∃ last, phrase last w t) (chain expected op? p) := by
  intro ts rest t hy
  simp only [chain, yields_bind, yields_attempt, yields_pure] at hy
  obtain ⟨first, mid, hfirst, items, mid', hitems, rfl, rfl⟩ := hy
  obtain ⟨w, rfl, hw⟩ := hp hfirst
  have item : Reads (Operation isOp operand)
      (satisfy expected op? >>= fun op => p >>= fun t => pure (op, t)) := by
    intro us rest' c hc
    simp only [yields_bind, yields_satisfy, yields_pure] at hc
    obtain ⟨op, us', ⟨o, rfl, ho⟩, t, us'', ht, rfl, rfl⟩ := hc
    obtain ⟨v, rfl, hv⟩ := hp ht
    exact ⟨o :: v, rfl, o, v, rfl, hop ho, hv⟩
  obtain ⟨w', rfl, hw'⟩ := item.many hitems
  exact ⟨w ++ w', (List.append_assoc ..).symm, h.grouped hw hw'⟩

variable [Literal α] {q : Parser (Tree α)} {ts rest : List Token} {t : Tree α}

/-- An expression in parentheses has the tokens of the expression and one on each side. -/
theorem yields_parenthesizedOf (h : Reads Expression q)
    (hy : Yields (parenthesizedOf q) ts t rest) :
    ∃ l r w, ts = l :: (w ++ r :: rest) ∧ l.kind = .punct .openParen ∧ Expression w t ∧
      r.kind = .punct .closeParen := by
  simp only [parenthesizedOf, yields_bind, yields_attempt, yields_punct, yields_pure] at hy
  obtain ⟨l, mid, ⟨rfl, hl⟩, t', mid', ht, r, mid'', ⟨rfl, hr⟩, rfl, rfl⟩ := hy
  obtain ⟨w, rfl, hw⟩ := h ht
  exact ⟨l, r, w, rfl, hl, hw, hr⟩

theorem reads_assignmentOf (h : Reads Expression q) : Reads Part (assignmentOf q) := by
  intro ts rest t hy
  simp only [assignmentOf, yields_bind, yields_attempt, yields_identifier, yields_punct,
    yields_pure] at hy
  obtain ⟨name, mid, ⟨rfl, hname⟩, eq, mid', ⟨rfl, heq⟩, value, mid'', hvalue, rfl, rfl⟩ := hy
  obtain ⟨w, rfl, hw⟩ := h hvalue
  exact ⟨name :: eq :: w, rfl, .assignment hname heq hw⟩

/-- Expressions behind commas are arguments after the first. -/
theorem moreArguments_of_repeated {w : List Token} {ts : List (Tree α)}
    (h : Repeated (fun v c => ∃ o v', v = o :: v' ∧ o.kind = .punct .comma ∧
      Expression v' c) w ts) :
    MoreArguments w ts := by
  induction h with
  | nil => exact .nil
  | cons hitem _ ih =>
    obtain ⟨o, v, rfl, ho, hv⟩ := hitem
    exact .cons ho hv ih

/-- The tree of a call, by the number of arguments and the name. -/
theorem part_of_arguments {name : Token} {w : List Token} {ts : List (Tree α)}
    (hname : name.IsIdentifier) (hw : Arguments w ts) :
    Part (name :: w) (.node (callOperator name.text ts) ts) := by
  unfold callOperator
  split
  · next f t hf =>
    have hf : f.name = name.text := by
      simpa using List.find?_some hf
    exact .func hname hf.symm hw
  · next hno =>
    refine .call hname ?_ hw
    intro f hf hone
    obtain ⟨t, rfl⟩ := List.length_eq_one_iff.1 hone
    refine hno f t ?_ rfl
    rw [hf]
    cases f <;> rfl

/-- A call has its name, parentheses, and arguments with commas between them. -/
theorem reads_callOf (h : Reads Expression q) : Reads Part (callOf q) := by
  intro ts rest t hy
  simp only [callOf, yields_bind, yields_attempt, yields_identifier, yields_punct,
    yields_pure] at hy
  obtain ⟨name, mid, ⟨rfl, hname⟩, l, mid', ⟨rfl, hl⟩, args, mid'', hargs, r, mid''', ⟨rfl, hr⟩,
    rfl, rfl⟩ := hy
  rcases h.separated hargs with ⟨rfl, rfl⟩ | ⟨b, more, w, w', rfl, rfl, hb, hmore⟩
  · exact ⟨[name, l, r], rfl, part_of_arguments hname (.none hl hr)⟩
  · refine ⟨name :: l :: (w ++ w' ++ [r]), by simp, part_of_arguments hname ?_⟩
    exact .some hl hb (moreArguments_of_repeated hmore) hr

/-- Each of the alternatives of a part is one of the grammar. -/
theorem reads_partOf (h : Reads Expression q) : Reads Part (partOf q) := by
  intro ts rest t hy
  simp only [partOf, yields_orElse] at hy
  rcases hy with hy | ⟨-, hy | ⟨-, hy | ⟨-, hy | ⟨-, hy | ⟨-, hy⟩⟩⟩⟩⟩
  · obtain ⟨l, r, w, rfl, hl, hw, hr⟩ := yields_parenthesizedOf h hy
    exact ⟨l :: (w ++ [r]), by simp, .parenthesized hl hw hr⟩
  · exact reads_assignmentOf h hy
  · obtain ⟨w, a, rfl, hw, rfl⟩ := yields_constant.1 hy
    exact ⟨w, rfl, .number hw⟩
  · exact reads_callOf h hy
  · simp only [nameLeaf, yields_bind, yields_identifier, yields_pure] at hy
    obtain ⟨name, mid, ⟨rfl, hname⟩, rfl, rfl⟩ := hy
    exact ⟨[name], rfl, .name hname⟩
  · exact (not_yields_refuse hy).elim

/-- A power is one part, or two with the mark between them. -/
theorem reads_powerOf (h : Reads Expression q) : Reads Power (powerOf q) := by
  intro ts rest t hy
  simp only [powerOf, yields_bind, yields_attempt] at hy
  obtain ⟨base, mid, hbase, exponent, mid', hexponent, hy⟩ := hy
  obtain ⟨w, rfl, hw⟩ := reads_partOf h hbase
  cases exponent with
  | none =>
    obtain ⟨rfl, rfl⟩ := yields_pure.1 hy
    obtain ⟨-, rfl⟩ := yields_optional_none.1 hexponent
    exact ⟨w, rfl, .part hw⟩
  | some e =>
    obtain ⟨rfl, rfl⟩ := yields_pure.1 hy
    simp only [yields_optional_some, yields_bind, yields_attempt, yields_punct] at hexponent
    obtain ⟨o, mid'', ⟨rfl, ho⟩, he⟩ := hexponent
    obtain ⟨w', rfl, hw'⟩ := reads_partOf h he
    exact ⟨w ++ o :: w', by simp, .raised hw ho hw'⟩

theorem reads_productOf (h : Reads Expression q) :
    Reads (fun w t => ∃ last, Product last w t) (productOf q) :=
  reads_chain product_grows multiplicative?_eq_some (reads_powerOf h)

theorem reads_sumOf (h : Reads Expression q) : Reads (fun w t => ∃ last, Sum last w t) (sumOf q) :=
  reads_chain sum_grows additive?_eq_some (reads_productOf h)

/-- An expression is one sum, or two with a comparison between them. -/
theorem reads_expressionOf (h : Reads Expression q) : Reads Expression (expressionOf q) := by
  intro ts rest t hy
  simp only [expressionOf, yields_bind, yields_attempt] at hy
  obtain ⟨left, mid, hleft, right, mid', hright, hy⟩ := hy
  obtain ⟨w, rfl, last, hw⟩ := reads_sumOf h hleft
  cases right with
  | none =>
    obtain ⟨rfl, rfl⟩ := yields_pure.1 hy
    obtain ⟨-, rfl⟩ := yields_optional_none.1 hright
    exact ⟨w, rfl, .sum hw⟩
  | some right =>
    obtain ⟨rfl, rfl⟩ := yields_pure.1 hy
    simp only [yields_optional_some, yields_bind, yields_satisfy, yields_pure] at hright
    obtain ⟨r, mid'', ⟨o, rfl, ho⟩, t', mid''', ht', rfl, rfl⟩ := hright
    obtain ⟨w', rfl, last', hw'⟩ := reads_sumOf h ht'
    exact ⟨w ++ o :: w', by simp, .comparison hw (relation?_eq_some ho) hw'⟩

theorem reads_expression : Reads Expression (expression : Parser (Tree α)) :=
  Reads.fix fun _ h => reads_expressionOf h

end Expressions

/-! ## Statements and programs -/

section Statements

variable {α : Type} [Literal α] {q : Parser (Tree α)} {ts rest : List Token}

open Phrase

theorem sequence_of_repeated {w : List Token} {ts : List (Tree α)} (h : Repeated Statement w ts) :
    Sequence w ts := by
  induction h with
  | nil => exact .nil
  | cons hitem _ ih => exact .cons hitem ih

theorem reads_blockOf (h : Reads Statement q) : Reads Block (blockOf q) := by
  intro ts rest t hy
  simp only [blockOf, sequenceOf, yields_bind, yields_attempt, yields_punct, yields_pure] at hy
  obtain ⟨l, mid, ⟨rfl, hl⟩, body, mid', ⟨items, mid'', hitems, rfl, rfl⟩, r, mid''', ⟨rfl, hr⟩,
    rfl, rfl⟩ := hy
  obtain ⟨w, rfl, hw⟩ := h.many hitems
  exact ⟨l :: (w ++ [r]), by simp, .mk hl (sequence_of_repeated hw) hr⟩

theorem reads_ifOf (h : Reads Statement q) : Reads Statement (ifOf q) := by
  intro ts rest t hy
  simp only [ifOf, condition, yields_bind, yields_attempt, yields_keyword, yields_pure] at hy
  obtain ⟨kw, mid, ⟨rfl, hkw⟩, c, mid', hc, yes, mid'', hyes, no, mid''', hno, rfl, rfl⟩ := hy
  obtain ⟨l, r, w, rfl, hl, hw, hr⟩ := yields_parenthesizedOf reads_expression hc
  obtain ⟨w', rfl, hw'⟩ := reads_blockOf h hyes
  cases no with
  | none =>
    obtain ⟨-, rfl⟩ := yields_optional_none.1 hno
    exact ⟨kw :: l :: (w ++ r :: w'), by simp, .ifThen hkw hl hw hr hw'⟩
  | some no =>
    simp only [yields_optional_some, yields_bind, yields_attempt, yields_keyword] at hno
    obtain ⟨kw', mid4, ⟨rfl, hkw'⟩, hno⟩ := hno
    obtain ⟨w'', rfl, hw''⟩ := reads_blockOf h hno
    exact ⟨kw :: l :: (w ++ r :: (w' ++ kw' :: w'')), by simp,
      .ifThenElse hkw hl hw hr hw' hkw' hw''⟩

theorem reads_whileOf (h : Reads Statement q) : Reads Statement (whileOf q) := by
  intro ts rest t hy
  simp only [whileOf, yields_bind, yields_attempt, yields_keyword, yields_pure] at hy
  obtain ⟨kw, mid, ⟨rfl, hkw⟩, c, mid', hc, body, mid'', hbody, rfl, rfl⟩ := hy
  obtain ⟨w, rfl, hw⟩ := reads_expression hc
  obtain ⟨w', rfl, hw'⟩ := reads_blockOf h hbody
  exact ⟨kw :: (w ++ w'), by simp, .whileLoop hkw hw hw'⟩

/-- The tokens of the head are found in the order of the grammar. -/
theorem reads_forOf (h : Reads Statement q) : Reads Statement (forOf q) := by
  intro ts rest t hy
  simp only [forOf, yields_bind, yields_attempt, yields_keyword, yields_punct, yields_pure] at hy
  obtain ⟨kw, _, ⟨rfl, hkw⟩, l, _, ⟨rfl, hl⟩, first, _, hfirst, s, _, ⟨rfl, hs⟩, c, _, hc, s', _,
    ⟨rfl, hs'⟩, step, _, hstep, r, _, ⟨rfl, hr⟩, body, _, hbody, rfl, rfl⟩ := hy
  obtain ⟨w, rfl, hw⟩ := reads_expression hfirst
  obtain ⟨w', rfl, hw'⟩ := reads_expression hc
  obtain ⟨w'', rfl, hw''⟩ := reads_expression hstep
  obtain ⟨v, rfl, hv⟩ := reads_blockOf h hbody
  exact ⟨kw :: l :: (w ++ s :: (w' ++ s' :: (w'' ++ r :: v))), by simp,
    .forLoop hkw hl hw hs hw' hs' hw'' hr hv⟩

theorem reads_returning : Reads Statement (closed (returning : Parser (Tree α))) := by
  intro ts rest t hy
  simp only [closed, returning, condition, yields_bind, yields_attempt, yields_keyword,
    yields_punct, yields_pure] at hy
  obtain ⟨_, _, ⟨kw, _, ⟨rfl, hkw⟩, value, _, hvalue, rfl, rfl⟩, s, _, ⟨rfl, hs⟩, rfl, rfl⟩ := hy
  obtain ⟨l, r, w, rfl, hl, hw, hr⟩ := yields_parenthesizedOf reads_expression hvalue
  exact ⟨kw :: l :: (w ++ [r, s]), by simp, .giveBack hkw hl hw hr hs⟩

theorem reads_closedExpression : Reads Statement (closed (expression : Parser (Tree α))) := by
  intro ts rest t hy
  simp only [closed, yields_bind, yields_attempt, yields_punct, yields_pure] at hy
  obtain ⟨t, _, ht, s, _, ⟨rfl, hs⟩, rfl, rfl⟩ := hy
  obtain ⟨w, rfl, hw⟩ := reads_expression ht
  exact ⟨w ++ [s], by simp, .expression hw hs⟩

/-- Each of the alternatives of a statement is one of the grammar. -/
theorem reads_statementOf (h : Reads Statement q) : Reads Statement (statementOf q) := by
  intro ts rest t hy
  simp only [statementOf, yields_orElse, yields_attempt] at hy
  rcases hy with hy | ⟨-, hy | ⟨-, hy | ⟨-, hy | ⟨-, hy⟩⟩⟩⟩
  · exact reads_ifOf h hy
  · exact reads_whileOf h hy
  · exact reads_returning hy
  · exact reads_forOf h hy
  · exact reads_closedExpression hy

/-- Whatever is read as a statement is one, with the blocks within it. -/
theorem reads_statement : Reads Statement (statement : Parser (Tree α)) :=
  Reads.fix fun _ h => reads_statementOf h

theorem moreParameters_of_repeated {w names : List Token}
    (h : Repeated (fun v n => ∃ o v', v = o :: v' ∧ o.kind = .punct .comma ∧
      v' = [n] ∧ n.IsIdentifier) w names) : MoreParameters w names := by
  induction h with
  | nil => exact .nil
  | cons hitem _ ih =>
    obtain ⟨o, v, rfl, ho, rfl, hn⟩ := hitem
    exact .cons ho hn ih

/-- The head and the block of a definition are those of the grammar. -/
theorem reads_definition : Reads Definition (definition : Parser (Tree α)) := by
  intro ts rest t hy
  simp only [definition, block, yields_bind, yields_attempt, yields_keyword, yields_identifier,
    yields_punct, yields_pure] at hy
  obtain ⟨kw, _, ⟨rfl, hkw⟩, name, _, ⟨rfl, hname⟩, l, _, ⟨rfl, hl⟩, names, _, hnames, r, _,
    ⟨rfl, hr⟩, body, _, hbody, rfl, rfl⟩ := hy
  obtain ⟨w', rfl, hw'⟩ := reads_blockOf reads_statement hbody
  have parameter : Reads (fun v n => v = [n] ∧ n.IsIdentifier) (Parser.attempt identifier) := by
    intro us rest' n hy
    obtain ⟨rfl, hn⟩ := yields_identifier.1 (yields_attempt.1 hy)
    exact ⟨[n], rfl, rfl, hn⟩
  rcases parameter.separated hnames with ⟨rfl, rfl⟩ | ⟨n, more, w, v, rfl, rfl, ⟨rfl, hn⟩, hmore⟩
  · exact ⟨kw :: name :: ([l, r] ++ w'), by simp, .mk hkw hname (.none hl hr) hw'⟩
  · refine ⟨kw :: name :: (l :: n :: (v ++ [r]) ++ w'), by simp, .mk hkw hname ?_ hw'⟩
    exact .some hl hn (moreParameters_of_repeated hmore) hr

theorem program_of_repeated {w : List Token} {ts : List (Tree α)} (h : Repeated Definition w ts) :
    Program w ts := by
  induction h with
  | nil => exact .nil
  | cons hitem _ ih => exact .cons hitem ih

/-- What is read of a text from its start is a sentence. -/
theorem reads_production (entry : Entry) :
    Reads entry.Sentence (entry.production : Parser (Tree α)) := by
  intro ts rest t hy
  cases entry with
  | expression => exact reads_expression hy
  | statements =>
    simp only [Entry.production, sequence, sequenceOf, yields_bind, yields_pure] at hy
    obtain ⟨items, _, hitems, rfl, rfl⟩ := hy
    obtain ⟨w, rfl, hw⟩ := reads_statement.many hitems
    exact ⟨w, rfl, items, sequence_of_repeated hw, rfl⟩
  | program =>
    simp only [Entry.production, program, yields_bind, yields_pure] at hy
    obtain ⟨items, _, hitems, rfl, rfl⟩ := hy
    obtain ⟨w, rfl, hw⟩ := reads_definition.many hitems
    exact ⟨w, rfl, items, program_of_repeated hw, rfl⟩

end Statements

end Fluxion.Grammar

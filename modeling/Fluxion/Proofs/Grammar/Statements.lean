import Fluxion.Proofs.Grammar.Completeness

/-!
# Every statement and every program is read

What follows an expression in a statement is a closing mark, a semicolon or an opening brace, and
none of them goes on with the expression. What follows a statement is another statement, a closing
brace or the end mark, and none of them is `else`. So the parser reads a statement of the grammar
whole, and from there blocks, sequences, definitions and programs, by the derivation.
-/

namespace Fluxion.Grammar

open Fluxion.Parser

/-- A statement is followed by no alternative of its own. -/
def NoElse (ts : List Token) : Prop := ∀ o ∈ ts.head?, o.kind ≠ .keyword .elseKw

/-- A sequence ends here. -/
def Ends (ts : List Token) : Prop :=
  ∀ o ∈ ts.head?, o.kind = .punct .closeCurly ∨ o.kind = .punct .dollar

/-- Where a sequence ends no alternative follows. -/
theorem Ends.noElse {ts : List Token} (h : Ends ts) : NoElse ts := by
  intro o ho hk
  rcases h o ho with h | h
  · rw [hk] at h
    exact nomatch h
  · rw [hk] at h
    exact nomatch h

/-- What a reader gets through as an operand starts like one. -/
theorem Runs.head {s : List Level} {w : List Token} (h : Runs .operand s w) :
    ∃ o v, w = o :: v ∧ StartsPart o := by
  cases h with
  | parenthesized hl => exact ⟨_, _, rfl, Or.inl hl⟩
  | assignment hname => exact ⟨_, _, rfl, Or.inr (Or.inl hname.1)⟩
  | unsigned ho => exact ⟨_, _, rfl, Or.inr (Or.inr (Or.inl ho))⟩
  | negative hsign => exact ⟨_, _, rfl, Or.inr (Or.inr (Or.inr hsign))⟩
  | call hname => exact ⟨_, _, rfl, Or.inr (Or.inl hname.1)⟩
  | callWith hname => exact ⟨_, _, rfl, Or.inr (Or.inl hname.1)⟩
  | name hname => exact ⟨_, _, rfl, Or.inr (Or.inl hname.1)⟩

end Fluxion.Grammar

namespace Fluxion.Phrase

open Fluxion.Parser Fluxion.Grammar

variable {α : Type} [Literal α]

theorem Expression.head {w : List Token} {t : Tree α} (h : Expression w t) :
    ∃ o v, w = o :: v ∧ StartsPart o := by
  have hruns := h.runs (Runs.stop (s := []))
  rw [List.append_nil] at hruns
  exact hruns.head

theorem Block.head {w : List Token} {t : Tree α} (h : Block w t) :
    ∃ o v, w = o :: v ∧ o.kind = .punct .openCurly := by
  cases h with
  | mk hl => exact ⟨_, _, rfl, hl⟩

/-- No statement starts with `else`. -/
theorem Statement.head {w : List Token} {t : Tree α} (h : Statement w t) :
    ∃ o v, w = o :: v ∧ o.kind ≠ .keyword .elseKw := by
  cases h with
  | ifThen hkw => exact ⟨_, _, rfl, by simp [hkw]⟩
  | ifThenElse hkw => exact ⟨_, _, rfl, by simp [hkw]⟩
  | whileLoop hkw => exact ⟨_, _, rfl, by simp [hkw]⟩
  | giveBack hkw => exact ⟨_, _, rfl, by simp [hkw]⟩
  | forLoop hkw => exact ⟨_, _, rfl, by simp [hkw]⟩
  | expression h =>
    obtain ⟨o, v, rfl, ho⟩ := h.head
    exact ⟨o, _, rfl, ho.not_keyword _⟩

/-- Statements start with other words than an alternative does. -/
theorem Sequence.noElse {w rest : List Token} {ts : List (Tree α)} (h : Sequence w ts)
    (hrest : NoElse rest) : NoElse (w ++ rest) := by
  cases h with
  | nil => exact hrest
  | cons h _ =>
    obtain ⟨o, v, rfl, ho⟩ := h.head
    intro o' ho'
    cases ho'
    exact ho

/-- A condition in parentheses is read whole, whatever follows. -/
theorem yields_condition {l r : Token} {w : List Token} {t : Tree α}
    (hl : l.kind = .punct .openParen) (h : Expression w t) (hr : r.kind = .punct .closeParen) :
    ∃ t' : Tree α, ∀ rest, Yields condition (l :: (w ++ r :: rest)) t' rest := by
  obtain ⟨t', ht'⟩ := h.yields
  exact ⟨t', fun rest => yields_parenthesizedOf_of hl (ht' (stops_of_kind rest hr (by decide))) hr⟩

/-- Where a sequence ends no further statement is read. -/
theorem yields_statements_nil {rest : List Token} (hrest : Ends rest) :
    Yields (many (statement : Parser (Tree α))) rest [] rest := by
  refine yields_many_of_refuses ?_
  rw [statement_eq]
  exact refuses_statementOf hrest

-- Along the derivation. What follows a statement must not be `else`, and what follows a sequence
-- is read as further statements.
mutual

/-- Every statement is read whole, in front of whatever is no alternative of it. The tree may be
another, since the grammar leaves open how operators attach. -/
theorem Statement.yields {α : Type} [Literal α] {w : List Token} {t : Tree α} :
    Statement w t → ∃ t' : Tree α, ∀ {rest : List Token}, NoElse rest →
      Yields statement (w ++ rest) t' rest
  | @Statement.ifThen _ _ _ _ r w w' _ _ hkw hl hc hr hyes => by
    obtain ⟨c, hc'⟩ := yields_condition hl hc hr
    obtain ⟨yes, hyes'⟩ := hyes.yields
    refine ⟨.node .ifElse [c, yes], @fun rest hrest => ?_⟩
    rw [statement_eq, List.cons_append, List.cons_append, List.append_assoc]
    exact yields_statementOf_if hkw (hc' _) (hyes' rest)
      (yields_optional_none.2 ⟨refuses_otherwise hrest, rfl⟩)
  | @Statement.ifThenElse _ _ _ _ r kw' w w' w'' _ _ _ hkw hl hc hr hyes hkw' hno => by
    obtain ⟨c, hc'⟩ := yields_condition hl hc hr
    obtain ⟨yes, hyes'⟩ := hyes.yields
    obtain ⟨no, hno'⟩ := hno.yields
    refine ⟨.node .ifElse [c, yes, no], @fun rest _ => ?_⟩
    have hwhole := yields_statementOf_if hkw (hc' (w' ++ kw' :: (w'' ++ rest)))
      (hyes' (kw' :: (w'' ++ rest))) (yields_optional_some.2 (yields_otherwise hkw' (hno' rest)))
    rw [statement_eq]
    simpa using hwhole
  | @Statement.whileLoop _ _ _ w w' _ _ hkw hc hbody => by
    obtain ⟨body, hbody'⟩ := hbody.yields
    obtain ⟨c, hc'⟩ := hc.yields
    refine ⟨.node .whileLoop [c, body], @fun rest _ => ?_⟩
    -- no parentheses end the condition here: it stops at the brace of the block
    have hstops : Stops (w' ++ rest) := by
      obtain ⟨o, v, rfl, ho⟩ := hbody.head
      exact stops_of_kind _ ho (by decide)
    rw [statement_eq, List.cons_append, List.append_assoc]
    exact yields_statementOf_while hkw (hc' hstops) (hbody' rest)
  | .giveBack (r := r) (s := s) (w := w) hkw hl h hr hs => by
    obtain ⟨t, ht⟩ := yields_condition hl h hr
    refine ⟨.node .giveBack [t], @fun rest _ => ?_⟩
    rw [statement_eq, List.cons_append, List.cons_append, List.append_assoc]
    exact yields_statementOf_return hkw (ht (s :: rest)) hs
  | @Statement.forLoop _ _ _ _ s s' r _ w' w'' v _ _ _ _ hkw hl hfirst hs hc hs' hstep hr
      hbody => by
    obtain ⟨body, hbody'⟩ := hbody.yields
    obtain ⟨step, hstep'⟩ := hstep.yields
    obtain ⟨c, hc'⟩ := hc.yields
    obtain ⟨first, hfirst'⟩ := hfirst.yields
    refine ⟨.node .forLoop [first, c, step, body], @fun rest _ => ?_⟩
    have hwhole := yields_statementOf_for hkw hl
      (hfirst' (stops_of_kind (w' ++ s' :: (w'' ++ r :: (v ++ rest))) hs (by decide))) hs
      (hc' (stops_of_kind (w'' ++ r :: (v ++ rest)) hs' (by decide))) hs'
      (hstep' (stops_of_kind (v ++ rest) hr (by decide))) hr (hbody' rest)
    rw [statement_eq]
    simpa using hwhole
  | .expression (s := s) (w := w) h hs => by
    obtain ⟨t, ht⟩ := h.yields
    refine ⟨t, @fun rest _ => ?_⟩
    rw [statement_eq, List.append_assoc]
    -- the keyword that would start another statement starts no expression
    refine yields_statementOf_expression ?_ (ht (stops_of_kind rest hs (by decide))) hs
    obtain ⟨o, v, rfl, ho⟩ := h.head
    intro o' ho'
    cases ho'
    exact ho

theorem Block.yields {α : Type} [Literal α] {w : List Token} {t : Tree α} :
    Block w t → ∃ t' : Tree α, ∀ rest, Yields block (w ++ rest) t' rest
  | .mk (r := r) hl h hr => by
    obtain ⟨ts, hts⟩ := h.yields
    refine ⟨.node .sequence ts, fun rest => ?_⟩
    have hends : Ends (r :: rest) := by
      intro o ho
      cases ho
      exact Or.inl hr
    have hbody := hts hends.noElse (yields_statements_nil hends)
    rw [List.append_nil] at hbody
    rw [List.cons_append, List.append_assoc]
    exact yields_blockOf_of hl hbody hr

/-- A sequence is read, and then what is read behind it. -/
theorem Sequence.yields {α : Type} [Literal α] {w : List Token} {ts : List (Tree α)} :
    Sequence w ts → ∃ ts' : List (Tree α), ∀ {rest rest' : List Token} {more : List (Tree α)},
      NoElse rest → Yields (many statement) rest more rest' →
        Yields (many statement) (w ++ rest) (ts' ++ more) rest'
  | .nil => ⟨[], fun _ hmore => hmore⟩
  | @Sequence.cons _ _ w w' _ _ h h' => by
    obtain ⟨ts', hts'⟩ := h'.yields
    obtain ⟨t', ht'⟩ := h.yields
    refine ⟨t' :: ts', fun hrest hmore => ?_⟩
    rw [List.append_assoc]
    refine yields_many_of_yields (ht' (h'.noElse hrest)) ?_ (hts' hrest hmore)
    obtain ⟨o, v, rfl, -⟩ := h.head
    simp only [List.cons_append, List.length_cons, List.length_append]
    omega

end

/-! ## Definitions and programs -/

/-- The parameters are read up to the closing mark. -/
theorem MoreParameters.yields {w rest names : List Token} {r : Token} (h : MoreParameters w names)
    (hr : r.kind = .punct .closeParen) :
    Yields (many (afterComma (attempt identifier))) (w ++ r :: rest) names (r :: rest) := by
  induction h with
  | nil => exact yields_many_of_refuses (refuses_afterComma (by simp [hr]))
  | cons hcomma hname _ ih =>
    refine yields_many_of_yields (yields_afterComma hcomma ?_) ?_ ih
    · exact yields_attempt.2 (yields_identifier.2 ⟨rfl, hname⟩)
    · simp only [List.cons_append, List.length_cons]
      omega

/-- The parameters are the names between the parentheses, in order. -/
theorem Parameters.yields {w names : List Token} (h : Parameters w names) :
    ∃ l r v, w = l :: (v ++ [r]) ∧ l.kind = .punct .openParen ∧ r.kind = .punct .closeParen ∧
      ∀ rest, Yields (separated (punct .comma) (attempt identifier)) (v ++ r :: rest) names
        (r :: rest) := by
  cases h with
  | @none l r hl hr =>
    refine ⟨l, r, [], rfl, hl, hr, fun rest => yields_separated_nil ?_⟩
    exact refuses_attempt (refuses_identifier (by simp [hr]))
  | @some l r name w names hl hname hmore hr =>
    refine ⟨l, r, name :: w, rfl, hl, hr, fun rest => ?_⟩
    refine yields_separated_cons ?_ (hmore.yields hr)
    exact yields_attempt.2 (yields_identifier.2 ⟨rfl, hname⟩)

/-- A definition is read whole, whatever stands behind it. -/
theorem Definition.yields {w : List Token} {t : Tree α} (h : Definition w t) :
    ∃ t' : Tree α, ∀ rest, Yields definition (w ++ rest) t' rest := by
  cases h with
  | @mk kw name w w' names body hkw hname hparameters hbody =>
    obtain ⟨body', hbody'⟩ := hbody.yields
    obtain ⟨l, r, v, rfl, hl, hr, hnames⟩ := hparameters.yields
    refine ⟨.node (.define name.text) (names.map (fun n => .var n.text) ++ [body']), fun rest => ?_⟩
    have hwhole := yields_definition_of hkw hname hl (hnames _) hr (hbody' rest)
    simpa using hwhole

theorem yields_definitions_nil {rest : List Token} (hrest : Ends rest) :
    Yields (many (definition : Parser (Tree α))) rest [] rest := by
  refine yields_many_of_refuses (refuses_definition fun o ho hk => ?_)
  rcases hrest o ho with h | h <;> simp [hk] at h

/-- A program is read, and then the definitions that are read behind it. -/
theorem Program.yields {w : List Token} {ts : List (Tree α)} (h : Program w ts) :
    ∃ ts' : List (Tree α), ∀ {rest rest' : List Token} {more : List (Tree α)},
      Yields (many definition) rest more rest' →
        Yields (many definition) (w ++ rest) (ts' ++ more) rest' := by
  induction h with
  | nil => exact ⟨[], fun hmore => hmore⟩
  | @cons w w' t ts h _ ih =>
    obtain ⟨ts', hts'⟩ := ih
    obtain ⟨t', ht'⟩ := h.yields
    refine ⟨t' :: ts', fun hmore => ?_⟩
    rw [List.append_assoc]
    refine yields_many_of_yields (ht' _) ?_ (hts' hmore)
    cases h with
    | mk => simp only [List.cons_append, List.length_cons, List.length_append]; omega

end Fluxion.Phrase

namespace Fluxion

open Fluxion.Parser Fluxion.Grammar

/-- Every sentence is read whole before the end mark. -/
theorem Entry.Sentence.yields {α : Type} [Literal α] {entry : Entry} {w : List Token}
    {o : Token} {t : Tree α} (rest : List Token) (h : entry.Sentence w t)
    (ho : o.kind = .punct .dollar) :
    ∃ t' : Tree α, Yields entry.production (w ++ o :: rest) t' (o :: rest) := by
  -- the end mark ends every repetition
  have hends : Ends (o :: rest) := by
    intro o' ho'
    cases ho'
    exact Or.inr ho
  cases entry with
  | expression =>
    obtain ⟨t', ht'⟩ := Phrase.Expression.yields h
    exact ⟨t', ht' (stops_of_kind rest ho (by decide))⟩
  | statements =>
    obtain ⟨ts, h, -⟩ := h
    obtain ⟨ts', hts'⟩ := h.yields
    have hread := hts' hends.noElse (Phrase.yields_statements_nil hends)
    exact ⟨.node .sequence (ts' ++ []), yields_bind.2 ⟨_, _, hread, yields_pure.2 ⟨rfl, rfl⟩⟩⟩
  | program =>
    obtain ⟨ts, h, -⟩ := h
    obtain ⟨ts', hts'⟩ := h.yields
    have hread := hts' (Phrase.yields_definitions_nil hends)
    exact ⟨.node .sequence (ts' ++ []), yields_bind.2 ⟨_, _, hread, yields_pure.2 ⟨rfl, rfl⟩⟩⟩

end Fluxion

import Fluxion.Proofs.Decimal.Doubles
import Fluxion.Proofs.Tree.ReadBack

/-!
# Printing and parsing

The text of a tree that has the shape of an entry, with the end mark after it, is read as that tree
(`Entry.parse_text`). Since every tree that is read has that shape, printing and parsing are inverse
to each other on exactly these trees (`Entry.round_trip`).

For expressions this is `Shape.Expression.readsBack`. Statements are read one after another: what
follows a statement is never an `else`, because every statement starts with another token.
-/

namespace Fluxion

open Fluxion.Parser Fluxion.Grammar

variable {α : Type} [Literal α] {finite : α → Prop} {t : Tree α} {ts : List (Tree α)}
variable {w rest : List Token}

/-- A statement is read back from the tokens of its pieces, where no `else` follows. -/
def StatementReadsBack (t : Tree α) : Prop :=
  ∀ {w rest : List Token}, Spelled t.statementPieces w → NoElse rest →
    Yields statement (w ++ rest) t rest

/-! ## Blocks -/

/-- The blanks between statements leave no token. -/
theorem spelled_statements (h : Spelled (Tree.sequencePieces ts) w) :
    Spelled (ts.flatMap Tree.statementPieces) w := by
  cases ts with
  | nil => exact h
  | cons t ts =>
    rw [Tree.sequencePieces, List.map_cons, Written.intercalate_cons, List.flatMap_map] at h
    obtain ⟨v, u, rfl, hv, hu⟩ := spelled_append.1 h
    refine spelled_append.2 ⟨v, u, rfl, hv, ?_⟩
    clear hv h
    induction ts generalizing u with
    | nil => exact hu
    | cons t ts ih =>
      obtain ⟨x, y, rfl, hx, hy⟩ := spelled_append.1 hu
      exact spelled_append.2 ⟨x, y, rfl, hx.blank, ih y hy⟩

/-- What is read as a statement starts with a token that is not `else`. -/
theorem head_of_yields_statement (h : Yields statement (w ++ rest) t rest) :
    ∃ o v, w = o :: v ∧ o.kind ≠ .keyword .elseKw := by
  obtain ⟨v, hv, hstatement⟩ := reads_statement h
  rw [List.append_cancel_right hv]
  exact hstatement.head

/-- Statements are read back one after another, up to the end of their block. -/
theorem yields_many_statement (hts : ∀ t ∈ ts, StatementReadsBack t)
    (hw : Spelled (ts.flatMap Tree.statementPieces) w) (hrest : Ends rest) :
    Yields (many statement) (w ++ rest) ts rest ∧ NoElse (w ++ rest) := by
  induction ts generalizing w with
  | nil =>
    cases hw
    refine ⟨yields_many_of_refuses ?_, hrest.noElse⟩
    rw [statement_eq]
    exact refuses_statementOf hrest
  | cons t ts ih =>
    obtain ⟨v, u, rfl, hv, hu⟩ := spelled_append.1 hw
    obtain ⟨hmany, hnoElse⟩ := ih (fun t ht => hts t (List.mem_cons_of_mem _ ht)) hu
    have hfirst := hts t List.mem_cons_self hv hnoElse
    -- every statement has a first token, so the repetition goes on with fewer
    obtain ⟨o, v', rfl, ho⟩ := head_of_yields_statement hfirst
    rw [List.append_assoc]
    refine ⟨yields_many_of_yields hfirst ?_ hmany, ?_⟩
    · simp only [List.cons_append, List.length_cons, List.length_append]
      omega
    · intro o' ho'
      cases ho'
      exact ho

/-- Statements in braces are read back. -/
theorem yields_block (rest : List Token) (hts : ∀ t ∈ ts, StatementReadsBack t)
    (hw : Spelled (Written.inBraces (Tree.sequencePieces ts)) w) :
    Yields block (w ++ rest) (.node .sequence ts) rest := by
  obtain ⟨l, w', rfl, hl, hw'⟩ := hw.punct .openCurly rfl
  obtain ⟨v, u, rfl, hv, hu⟩ := spelled_append.1 hw'.blank
  obtain ⟨r, u', rfl, hr, rfl⟩ := hu.blank.punct .closeCurly rfl
  have hends : Ends (r :: rest) := by
    intro o ho
    cases ho
    exact Or.inl hr
  have hbody := (yields_many_statement hts (spelled_statements hv) hends).1
  rw [List.cons_append, List.append_assoc]
  exact yields_blockOf_of hl hbody hr

theorem spelled_inBraces_head {ps : List String} (h : Spelled (Written.inBraces ps) w) :
    ∃ o v, w = o :: v ∧ o.kind = .punct .openCurly := by
  obtain ⟨o, v, rfl, ho, -⟩ := h.punct .openCurly rfl
  exact ⟨o, v, rfl, ho⟩

/-! ## Statements -/

/-- Only statements end in a block. -/
theorem Shape.Expression.statementPieces (h : Shape.Expression finite t) :
    t.statementPieces = t.pieces ++ [";"] := by
  cases h <;> rfl

/-- An expression is read up to its semicolon. -/
theorem statementReadsBack_expression (hlegible : Legible finite)
    (h : Shape.Expression finite t) : StatementReadsBack t := by
  intro w rest hw _
  rw [h.statementPieces] at hw
  obtain ⟨v, u, rfl, hv, hu⟩ := spelled_append.1 hw
  obtain ⟨s, u', rfl, hs, rfl⟩ := hu.punct .semicolon rfl
  have hread : Yields expression (v ++ s :: rest) t (s :: rest) :=
    (h.readsBack hlegible).reads hv (Nat.zero_le _) (stops_of_kind rest hs (by decide))
  rw [statement_eq, List.append_assoc]
  refine yields_statementOf_expression ?_ hread hs
  obtain ⟨v', hv', hphrase⟩ := reads_expression hread
  rw [List.append_cancel_right hv']
  obtain ⟨o, x, rfl, ho⟩ := hphrase.head
  intro o' ho'
  cases ho'
  exact ho

/-- An expression in parentheses is read back as a condition. -/
theorem yields_condition_of_inParens (rest : List Token) (ht : ReadsBack t)
    (hw : Spelled (Written.inParens t.pieces) w) : Yields condition (w ++ rest) t rest := by
  obtain ⟨l, w', rfl, hl, hw'⟩ := hw.punct .openParen rfl
  obtain ⟨v, u, rfl, hv, hu⟩ := spelled_append.1 hw'
  obtain ⟨r, u', rfl, hr, rfl⟩ := hu.punct .closeParen rfl
  have hinner : Yields expression (v ++ r :: rest) t (r :: rest) :=
    ht.reads hv (Nat.zero_le _) (stops_of_kind rest hr (by decide))
  rw [List.cons_append, List.append_assoc]
  exact yields_parenthesizedOf_of hl hinner hr

/-- What is returned is read within its parentheses. -/
theorem statementReadsBack_giveBack (ht : ReadsBack t) :
    StatementReadsBack (.node .giveBack [t]) := by
  intro w rest hw _
  have hpieces : (Tree.node .giveBack [t]).statementPieces =
      "return" :: (Written.inParens t.pieces ++ [";"]) := by
    rw [Tree.statementPieces, Tree.pieces_giveBack]
    rfl
  rw [hpieces] at hw
  obtain ⟨kw, w', rfl, hkw, hw'⟩ := hw.keyword .returnKw rfl
  obtain ⟨v, u, rfl, hv, hu⟩ := spelled_append.1 hw'
  obtain ⟨s, u', rfl, hs, rfl⟩ := hu.punct .semicolon rfl
  have hvalue := yields_condition_of_inParens (s :: rest) ht hv
  rw [statement_eq, List.cons_append, List.append_assoc]
  exact yields_statementOf_return hkw hvalue hs

variable {c : Tree α}

theorem statementReadsBack_ifThen (hc : ReadsBack c) (hts : ∀ t ∈ ts, StatementReadsBack t) :
    StatementReadsBack (.node .ifElse [c, .node .sequence ts]) := by
  intro w rest hw hrest
  rw [show (Tree.node .ifElse [c, .node .sequence ts]).statementPieces = _ from
    Tree.pieces_ifThen c ts] at hw
  obtain ⟨kw, w', rfl, hkw, hw'⟩ := hw.keyword .ifKw rfl
  obtain ⟨v, u, rfl, hv, hu⟩ := spelled_append.1 hw'.blank
  have hyes := yields_block rest hts hu.blank
  have hcondition := yields_condition_of_inParens (u ++ rest) hc hv
  rw [statement_eq, List.cons_append, List.append_assoc]
  exact yields_statementOf_if hkw hcondition hyes
    (yields_optional_none.2 ⟨refuses_otherwise hrest, rfl⟩)

/-- Behind the first block the keyword tells that there is a second. -/
theorem statementReadsBack_ifThenElse {ts' : List (Tree α)} (hc : ReadsBack c)
    (hts : ∀ t ∈ ts, StatementReadsBack t) (hts' : ∀ t ∈ ts', StatementReadsBack t) :
    StatementReadsBack (.node .ifElse [c, .node .sequence ts, .node .sequence ts']) := by
  intro w rest hw _
  rw [show (Tree.node .ifElse [c, .node .sequence ts, .node .sequence ts']).statementPieces = _ from
    Tree.pieces_ifThenElse c ts ts'] at hw
  obtain ⟨kw, w', rfl, hkw, hw'⟩ := hw.keyword .ifKw rfl
  obtain ⟨v, u, rfl, hv, hu⟩ := spelled_append.1 hw'.blank
  obtain ⟨x, y, rfl, hx, hy⟩ := spelled_append.1 hu.blank
  obtain ⟨kw', y', rfl, hkw', hy'⟩ := hy.blank.keyword .elseKw rfl
  have hno := yields_block rest hts' hy'.blank
  have hyes := yields_block (kw' :: (y' ++ rest)) hts hx
  have hcondition := yields_condition_of_inParens (x ++ kw' :: (y' ++ rest)) hc hv
  have hwhole := yields_statementOf_if hkw hcondition hyes
    (yields_optional_some.2 (yields_otherwise hkw' hno))
  rw [statement_eq]
  simpa using hwhole

/-- The condition is read up to the block. -/
theorem statementReadsBack_whileLoop (hc : ReadsBack c) (hts : ∀ t ∈ ts, StatementReadsBack t) :
    StatementReadsBack (.node .whileLoop [c, .node .sequence ts]) := by
  intro w rest hw _
  rw [show (Tree.node .whileLoop [c, .node .sequence ts]).statementPieces = _ from
    Tree.pieces_whileLoop c ts] at hw
  obtain ⟨kw, w', rfl, hkw, hw'⟩ := hw.keyword .whileKw rfl
  obtain ⟨v, u, rfl, hv, hu⟩ := spelled_append.1 hw'.blank
  have hbody := yields_block rest hts hu.blank
  have hstops : Stops (u ++ rest) := by
    obtain ⟨o, u', rfl, ho⟩ := spelled_inBraces_head hu.blank
    exact stops_of_kind _ ho (by decide)
  have hcondition : Yields expression (v ++ (u ++ rest)) c (u ++ rest) :=
    hc.reads hv (Nat.zero_le _) hstops
  rw [statement_eq, List.cons_append, List.append_assoc]
  exact yields_statementOf_while hkw hcondition hbody

/-- The parts of the head are read up to their semicolons. -/
theorem statementReadsBack_forLoop {first step : Tree α} (hfirst : ReadsBack first)
    (hc : ReadsBack c) (hstep : ReadsBack step) (hts : ∀ t ∈ ts, StatementReadsBack t) :
    StatementReadsBack (.node .forLoop [first, c, step, .node .sequence ts]) := by
  intro w rest hw _
  have hlisted : Written.listed ";" [first.pieces, c.pieces, step.pieces] =
      first.pieces ++ ";" :: " " :: (c.pieces ++ ";" :: " " :: step.pieces) := by
    simp [Written.listed, List.intercalate]
  rw [show (Tree.node .forLoop [first, c, step, .node .sequence ts]).statementPieces = _ from
    Tree.pieces_forLoop first c step ts, hlisted] at hw
  obtain ⟨kw, w', rfl, hkw, hw'⟩ := hw.keyword .forKw rfl
  obtain ⟨v, u, rfl, hv, hu⟩ := spelled_append.1 hw'.blank
  obtain ⟨l, v', rfl, hl, hv'⟩ := hv.punct .openParen rfl
  obtain ⟨x, r', rfl, hx, hr'⟩ := spelled_append.1 hv'
  obtain ⟨r, r'', rfl, hr, rfl⟩ := hr'.punct .closeParen rfl
  obtain ⟨a, x', rfl, ha, hx'⟩ := spelled_append.1 hx
  obtain ⟨s, x'', rfl, hs, hx''⟩ := hx'.punct .semicolon rfl
  obtain ⟨b, y, rfl, hb, hy⟩ := spelled_append.1 hx''.blank
  obtain ⟨s', d, rfl, hs', hd⟩ := hy.punct .semicolon rfl
  -- from the last part to the first, since each is read up to the mark after it
  have hbody := yields_block rest hts hu.blank
  have hstep' : Yields expression (d ++ r :: (u ++ rest)) step (r :: (u ++ rest)) :=
    hstep.reads hd.blank (Nat.zero_le _) (stops_of_kind _ hr (by decide))
  have hc' : Yields expression (b ++ s' :: (d ++ r :: (u ++ rest))) c
      (s' :: (d ++ r :: (u ++ rest))) :=
    hc.reads hb (Nat.zero_le _) (stops_of_kind _ hs' (by decide))
  have hfirst' : Yields expression (a ++ s :: (b ++ s' :: (d ++ r :: (u ++ rest)))) first
      (s :: (b ++ s' :: (d ++ r :: (u ++ rest)))) :=
    hfirst.reads ha (Nat.zero_le _) (stops_of_kind _ hs (by decide))
  have hwhole := yields_statementOf_for hkw hl hfirst' hs hc' hs' hstep' hr hbody
  rw [statement_eq]
  simpa using hwhole

/-- Every statement is read back. -/
theorem Shape.Statement.readsBack (hlegible : Legible finite) (h : Shape.Statement finite t) :
    StatementReadsBack t := by
  induction h with
  | expression h => exact statementReadsBack_expression hlegible h
  | giveBack h => exact statementReadsBack_giveBack (h.readsBack hlegible)
  | ifThen hc _ ih => exact statementReadsBack_ifThen (hc.readsBack hlegible) ih
  | ifThenElse hc _ _ ih ih' =>
    exact statementReadsBack_ifThenElse (hc.readsBack hlegible) ih ih'
  | whileLoop hc _ ih => exact statementReadsBack_whileLoop (hc.readsBack hlegible) ih
  | forLoop hfirst hc hstep _ ih =>
    exact statementReadsBack_forLoop (hfirst.readsBack hlegible) (hc.readsBack hlegible)
      (hstep.readsBack hlegible) ih

/-! ## Programs -/

/-- Parameters after the first are read one after another. -/
theorem yields_many_parameter {xs : List String} (rest : List Token) (hxs : ∀ x ∈ xs, IsName x)
    (hw : Spelled (xs.flatMap fun x => ["," , " ", x]) w) {r : Token}
    (hr : r.kind = .punct .closeParen) :
    ∃ names : List Token, names.map Token.text = xs ∧
      Yields (many (afterComma (attempt identifier))) (w ++ r :: rest) names (r :: rest) := by
  induction xs generalizing w with
  | nil =>
    cases hw
    exact ⟨[], rfl, yields_many_of_refuses (refuses_afterComma (by simp [hr]))⟩
  | cons x xs ih =>
    obtain ⟨o, w', rfl, ho, hw'⟩ := hw.punct .comma rfl
    obtain ⟨name, v, rfl, hname, rfl, hv⟩ := hw'.blank.name (hxs x List.mem_cons_self)
    obtain ⟨names, rfl, hmany⟩ := ih (fun x hx => hxs x (List.mem_cons_of_mem _ hx)) hv
    refine ⟨name :: names, rfl, yields_many_of_yields (yields_afterComma ho ?_) ?_ hmany⟩
    · exact yields_attempt.2 (yields_identifier.2 ⟨rfl, hname⟩)
    · simp only [List.cons_append, List.length_cons]
      omega

/-- Parameters are read as the names that they are written with. -/
theorem yields_parameters {xs : List String} (rest : List Token) (hxs : ∀ x ∈ xs, IsName x)
    (hw : Spelled (Written.listed "," (xs.map fun x => [x])) w) {r : Token}
    (hr : r.kind = .punct .closeParen) :
    ∃ names : List Token, names.map Token.text = xs ∧
      Yields (separated (punct .comma) (attempt identifier)) (w ++ r :: rest) names
        (r :: rest) := by
  cases xs with
  | nil =>
    cases hw
    exact ⟨[], rfl, yields_separated_nil (refuses_attempt (refuses_identifier (by simp [hr])))⟩
  | cons x xs =>
    rw [Written.listed, List.map_cons, Written.intercalate_cons, List.flatMap_map] at hw
    obtain ⟨name, v, rfl, hname, rfl, hv⟩ := hw.name (hxs x List.mem_cons_self)
    obtain ⟨names, rfl, hmany⟩ :=
      yields_many_parameter rest (fun x hx => hxs x (List.mem_cons_of_mem _ hx)) hv hr
    refine ⟨name :: names, rfl, yields_separated_cons ?_ hmany⟩
    exact yields_attempt.2 (yields_identifier.2 ⟨rfl, hname⟩)

/-- A definition is read back, whatever follows. -/
theorem Shape.Definition.yields (rest : List Token) (hlegible : Legible finite)
    (h : Shape.Definition finite t) (hw : Spelled t.statementPieces w) :
    Yields definition (w ++ rest) t rest := by
  cases h with
  | @mk name xs ts hname hxs hts =>
    rw [show (Tree.node (.define name) (xs.map .var ++ [.node .sequence ts])).statementPieces = _
      from Tree.pieces_define name xs ts] at hw
    obtain ⟨kw, w', rfl, hkw, hw'⟩ := hw.keyword .functionKw rfl
    obtain ⟨o, v, rfl, ho, rfl, hv⟩ := hw'.blank.name hname
    obtain ⟨x, u, rfl, hx, hu⟩ := spelled_append.1 hv
    obtain ⟨l, x', rfl, hl, hx'⟩ := hx.punct .openParen rfl
    obtain ⟨y, r', rfl, hy, hr'⟩ := spelled_append.1 hx'
    obtain ⟨r, r'', rfl, hr, rfl⟩ := hr'.punct .closeParen rfl
    obtain ⟨names, rfl, hnames⟩ := yields_parameters (u ++ rest) hxs hy hr
    have hbody := yields_block rest (fun t ht => (hts t ht).readsBack hlegible) hu.blank
    have hwhole := yields_definition_of hkw ho hl hnames hr hbody
    simp only [List.cons_append, List.append_assoc, List.nil_append, List.map_map]
    exact hwhole

/-- Definitions are read back one after another, up to the end. -/
theorem yields_many_definition (hlegible : Legible finite)
    (hts : ∀ t ∈ ts, Shape.Definition finite t)
    (hw : Spelled (ts.flatMap Tree.statementPieces) w) (hrest : Ends rest) :
    Yields (many definition) (w ++ rest) ts rest := by
  induction ts generalizing w with
  | nil =>
    cases hw
    refine yields_many_of_refuses (refuses_definition fun o ho hk => ?_)
    rcases hrest o ho with h | h <;> simp [hk] at h
  | cons t ts ih =>
    obtain ⟨v, u, rfl, hv, hu⟩ := spelled_append.1 hw
    have hmany := ih (fun t ht => hts t (List.mem_cons_of_mem _ ht)) hu
    have hfirst := (hts t List.mem_cons_self).yields (u ++ rest) hlegible hv
    rw [List.append_assoc]
    refine yields_many_of_yields hfirst ?_ hmany
    obtain ⟨x, hx, hphrase⟩ := reads_definition hfirst
    rw [List.append_cancel_right hx]
    cases hphrase with
    | mk =>
      simp only [List.cons_append, List.length_cons, List.length_append]
      omega

/-! ## Texts -/

/-- Whatever a text is read as, no two words or numbers stand side by side in what is written. -/
theorem Entry.Shape.neat {entry : Entry} (hlegible : Legible finite)
    (h : entry.Shape finite t) : Neat t.pieces := by
  cases entry with
  | expression => exact Fluxion.Shape.Expression.neat hlegible h
  | statements =>
    obtain ⟨ts, rfl, hts⟩ := h
    rw [Tree.pieces_sequence]
    exact Shape.neat_sequencePieces fun t ht => (hts t ht).neat hlegible
  | program =>
    obtain ⟨ts, rfl, hts⟩ := h
    rw [Tree.pieces_sequence]
    exact Shape.neat_sequencePieces fun t ht => (hts t ht).neat hlegible

/-- The production of an entry reads a tree of its shape back, before the end mark. -/
theorem Entry.Shape.yields {entry : Entry} (hlegible : Legible finite)
    (h : entry.Shape finite t) (hw : Spelled t.pieces w) {o : Token}
    (ho : o.kind = .punct .dollar) :
    Yields entry.production (w ++ o :: rest) t (o :: rest) := by
  -- the end mark ends every repetition
  have hends : Ends (o :: rest) := by
    intro o' ho'
    cases ho'
    exact Or.inr ho
  cases entry with
  | expression =>
    exact (Fluxion.Shape.Expression.readsBack hlegible h).reads hw (Nat.zero_le _)
      (stops_of_kind rest ho (by decide))
  | statements =>
    obtain ⟨ts, rfl, hts⟩ := h
    rw [Tree.pieces_sequence] at hw
    have hmany := yields_many_statement (fun t ht => (hts t ht).readsBack hlegible)
      (spelled_statements hw) hends
    exact yields_bind.2 ⟨ts, _, hmany.1, yields_pure.2 ⟨rfl, rfl⟩⟩
  | program =>
    obtain ⟨ts, rfl, hts⟩ := h
    rw [Tree.pieces_sequence] at hw
    have hmany := yields_many_definition hlegible hts (spelled_statements hw) hends
    exact yields_bind.2 ⟨ts, _, hmany, yields_pure.2 ⟨rfl, rfl⟩⟩

/-- The text of a tree of the right shape is read as that tree. -/
theorem Entry.parse_text {entry : Entry} (hlegible : Legible finite) (h : entry.Shape finite t) :
    entry.parse (t.text ++ "$") = .ok t := by
  have hpieces : (t.text ++ "$").toList = (t.pieces ++ ["$"]).flatMap String.toList := by
    rw [String.toList_append, Tree.text_eq, List.flatMap_append]
    rfl
  have hneat : Neat (t.pieces ++ ["$"]) :=
    (Entry.Shape.neat hlegible h).append_mark (isMark_char .dollar rfl) .nil
  have hspelled := hneat.spelled 0
  rw [← hpieces, ← Token.significant_eq] at hspelled
  obtain ⟨w, u, hsplit, hw, hu⟩ := spelled_append.1 hspelled
  obtain ⟨o, u', rfl, ho, rfl⟩ := hu.punct .dollar rfl
  refine parse_eq_ok.2 ⟨o, [], ?_, ho⟩
  rw [hsplit]
  exact Entry.Shape.yields hlegible h hw ho

/-- Printing and then parsing gives back every tree of the right shape, and parsing gives no other
trees, as far as their constants are finite. -/
theorem Entry.round_trip (hlegible : Legible finite) (entry : Entry) :
    (∀ t : Tree α, entry.Shape finite t → entry.parse (t.text ++ "$") = .ok t) ∧
      ∀ (text : String) (t : Tree α), entry.parse text = .ok t → t.IsFinite finite →
        entry.Shape finite t :=
  ⟨fun _ h => parse_text hlegible h, fun _ _ h ht => shape_of_parse h ht⟩

/-- The square of `x--1.5` is read back from its text, parentheses and both minus signs included. -/
theorem Entry.round_trip_square :
    Entry.expression.parse ((Tree.node (.nary .pow) [.node (.nary .sub) [.var "x",
        .num (⟨true, 4609434218613702656⟩ : Double)],
          .num ⟨false, 4611686018427387904⟩]).text ++ "$") =
      .ok (.node (.nary .pow) [.node (.nary .sub) [.var "x",
        .num (⟨true, 4609434218613702656⟩ : Double)], .num ⟨false, 4611686018427387904⟩]) := by
  refine (Entry.round_trip Double.legible .expression).1 _ ?_
  have hx : IsName "x" := ⟨⟨'x', [], rfl, rfl, by simp⟩, by decide, by decide⟩
  refine .pow (.pair (by decide) (.var hx) (.num ?_)) (.num ?_)
  · show 4609434218613702656 < Binary64.infinity
    decide
  · show 4611686018427387904 < Binary64.infinity
    decide

end Fluxion

import Fluxion.Proofs.Grammar.Viability

/-!
# Every phrase begun can be finished

The parsers of the grammar fail only where the tokens before begin a phrase of theirs. Each follows
the production that it reads: the language of a production is the product of those of its parts, and
the parts that are missing are the shortest that there are, `0` for an expression and `0;` for a
statement.
-/

namespace Fluxion

open Computability Fluxion.Parser

instance : Nonempty Token := ⟨⟨.blank, "", 0⟩⟩

instance : Nonempty NaryOp := ⟨.add⟩

instance : Nonempty Relation := ⟨.less⟩

instance {α : Type} : Nonempty (Tree α) := ⟨.var ""⟩

namespace Grammar

open Phrase

variable {mark : Punct} {word : Keyword}

/-! ## Single tokens -/

/-- The character of a mark makes its token. -/
theorem completable_punct (mark : Punct) :
    Completable (single fun o => o.kind = .punct mark) [] := by
  refine completable_single (p := String.singleton mark.char) ⟨.punct mark, trivial, ?_⟩ ?_
  · exact String.toList_singleton _
  · intro v hv
    obtain ⟨o, v, rfl, ho, rfl⟩ := hv.punct mark (String.toList_singleton _)
    exact ⟨o, rfl, ho⟩

theorem completable_keyword : Completable (single fun o => o.kind = .keyword word) [] := by
  refine completable_single (p := word.text) ⟨.keyword word, trivial, rfl⟩ ?_
  intro v hv
  obtain ⟨o, v, rfl, ho, rfl⟩ := hv.keyword word rfl
  exact ⟨o, rfl, ho⟩

/-- The text of one letter makes the token of an identifier. -/
theorem completable_identifier : Completable (single Token.IsIdentifier) [] := by
  have hspells : Kind.name.Spells ("f" : String).toList :=
    ⟨⟨'f', [], rfl, rfl, fun _ h => (nomatch h)⟩, by decide⟩
  refine completable_single (p := "f") ⟨.name, trivial, hspells⟩ ?_
  intro v hv
  obtain ⟨o, v, rfl, hkind, htext, rfl⟩ := hv.token hspells trivial
  exact ⟨o, rfl, hkind, by rw [htext]; decide⟩

theorem zero_spells : Kind.integer.Spells ("0" : String).toList :=
  ⟨by decide, List.all_eq_true.1 rfl⟩

/-- A reader for tokens of one kind, if there is a text for that kind. -/
theorem viable_ofKind {expected : Expectation} {kind : Kind}
    (hstart : Completable (single fun o => o.kind = kind) []) :
    Viable (single fun o => o.kind = kind) (ofKind expected kind) := by
  refine .satisfy ?_ hstart
  intro o b ho
  split at ho
  · assumption
  · exact (nomatch ho)

theorem viable_punct : Viable (single fun o => o.kind = .punct mark) (punct mark) :=
  viable_ofKind (completable_punct mark)

theorem viable_keyword : Viable (single fun o => o.kind = .keyword word) (keyword word) :=
  viable_ofKind completable_keyword

/-- A name that is too long is no failure at a place, but ends all reading. -/
theorem viable_identifier : Viable (single Token.IsIdentifier) identifier where
  start := completable_identifier
  reads hy := by
    obtain ⟨rfl, ho⟩ := yields_identifier.1 hy
    exact ⟨[_], ⟨_, ho, rfl⟩, rfl⟩
  fails hf := by
    rcases mem_failures_bind.1 hf with hword | ⟨name, rest, -, hlong⟩
    · rw [failures_attempt] at hword
      exact .of_head (Viable.found_of_mem_satisfy hword) completable_identifier
    · split at hlong <;> exact (nomatch hlong)

section Expressions

variable {α : Type} {q : Parser (Tree α)}

/-! ## Lists -/

/-- The phrases that come after a comma. -/
def AfterComma {β : Type} (phrase : List Token → β → Prop) (w : List Token) (b : β) : Prop :=
  ∃ o v, w = o :: v ∧ o.kind = .punct .comma ∧ phrase v b

/-- Nothing, or a phrase with any number of commas and phrases behind it. -/
theorem viable_separated {β : Type} [Nonempty β] {phrase : List Token → β → Prop} {p : Parser β}
    (h : Viable (phrases phrase) p) :
    Viable (1 + phrases phrase * (phrases (AfterComma phrase))∗)
      (separated (punct .comma) p) := by
  have item : Viable (phrases (AfterComma phrase)) (attempt (punct .comma) >>= fun _ => p) := by
    refine (viable_punct.attempt.bind fun _ => h).mono ?_
    rintro _ ⟨_, ⟨o, ho, rfl⟩, w, ⟨b, hw⟩, rfl⟩
    exact ⟨b, o, w, rfl, ho, hw⟩
  exact h.optional_bind (.pure []) fun b => item.many.map

/-- An operand, and operators with operands after it. -/
theorem viable_chain {isOp : Token → NaryOp → Prop} {operand : List Token → Tree α → Prop}
    {phrase : Option NaryOp → List Token → Tree α → Prop} (hgrows : Grows isOp operand phrase)
    {expected : Expectation} {op? : Token → Option NaryOp}
    (hop : ∀ {o op}, op? o = some op → isOp o op)
    (hstart : Completable (single fun o => ∃ op, isOp o op) [])
    (h : Viable (phrases operand) q) :
    Viable (phrases fun w t => ∃ last, phrase last w t) (chain expected op? q) := by
  have item : Viable (phrases (Operation isOp operand))
      (satisfy expected op? >>= fun op => q >>= fun t => pure (op, t)) := by
    have hsatisfy : Viable (single fun o => ∃ op, isOp o op) (satisfy expected op?) :=
      .satisfy (fun ho => ⟨_, hop ho⟩) hstart
    refine (hsatisfy.bind fun op => h.map).mono ?_
    rintro _ ⟨_, ⟨o, ⟨op, ho⟩, rfl⟩, w, ⟨t, hw⟩, rfl⟩
    exact ⟨(op, t), o, w, rfl, ho, hw⟩
  refine (h.attempt.bind fun first => item.many.map).mono ?_
  rintro _ ⟨w, ⟨t, hw⟩, w', hw', rfl⟩
  obtain ⟨items, hitems⟩ := repeated_of_kstar hw'
  exact ⟨_, hgrows.grouped hw hitems⟩

/-! ## Expressions -/

variable [Literal α]

/-- Where a number fails, `0` is missing, and right after the minus sign if there is one. -/
theorem viable_constant : Viable (phrases (Part (α := α))) (constant : Parser (Tree α)) := by
  -- whatever is missing of a constant, a zero completes it
  have hzero : ∀ p ∈ ["0"], IsPiece p := by
    intro p hp
    rw [List.mem_singleton.1 hp]
    exact ⟨.integer, trivial, zero_spells⟩
  have hunsigned : Completable (phrases (Part (α := α))) [] := by
    refine ⟨["0"], hzero, fun v hv _ => ?_⟩
    obtain ⟨o, v, rfl, ho, -, rfl⟩ := hv.numeral (Or.inl zero_spells)
    exact ⟨_, .number (.unsigned ho)⟩
  have hnegative : ∀ sign : Token, sign.kind = .punct .minus →
      Completable (phrases (Part (α := α))) [sign] := by
    refine fun sign hsign => ⟨["0"], hzero, fun v hv hjoined => ?_⟩
    obtain ⟨o, v, rfl, ho, -, rfl⟩ := hv.numeral (Or.inl zero_spells)
    exact ⟨_, .number (.negative hsign ho (hjoined sign rfl hsign o rfl))⟩
  refine ⟨hunsigned, ?_, ?_⟩
  · intro ts t rest hy
    obtain ⟨w, a, rfl, hw, rfl⟩ := yields_constant.1 hy
    exact ⟨w, ⟨_, .number hw⟩, rfl⟩
  · intro ts g hg
    -- the failure is at the sign, or behind a sign at the digits
    rcases mem_failures_bind.1 hg with hnumber | ⟨n, rest, -, hpure⟩
    · rcases mem_failures_bind.1 hnumber with hfirst | ⟨minus, mid, hminus, hdigits⟩
      · rw [failures_optional] at hfirst
        exact .of_head (Viable.found_of_mem_satisfy hfirst) hunsigned
      · have hfound := Viable.found_of_mem_satisfy hdigits
        cases minus with
        | none =>
          obtain ⟨-, rfl⟩ := yields_optional_none.1 hminus
          exact .of_head hfound hunsigned
        | some sign =>
          obtain ⟨rfl, hsign⟩ := yields_punct.1 (yields_optional_some.1 hminus)
          exact ⟨[sign], mid, rfl, hfound, hnegative sign hsign⟩
    · exact (nomatch hpure)

/-- The language is the product of the opening mark, expressions and the closing mark. -/
theorem viable_parenthesizedOf (h : Viable (phrases (Expression (α := α))) q) :
    Viable (single (·.kind = .punct .openParen) *
      (phrases (Expression (α := α)) * single (·.kind = .punct .closeParen)))
      (parenthesizedOf q) :=
  viable_punct.attempt.bind fun _ => h.bind fun _ => viable_punct.attempt.map

/-- A call that was begun can be finished with a closing mark, or an argument and that. -/
theorem viable_callOf (h : Viable (phrases (Expression (α := α))) q) :
    Viable (phrases (Part (α := α))) (callOf q) := by
  refine (viable_identifier.attempt.bind fun name => viable_punct.attempt.bind fun _ =>
    (viable_separated h).bind fun arguments => viable_punct.attempt.map).mono ?_
  rintro _ ⟨_, ⟨name, hname, rfl⟩, _, ⟨_, ⟨l, hl, rfl⟩, _, ⟨w, hw, _, ⟨r, hr, rfl⟩, rfl⟩, rfl⟩, rfl⟩
  rcases hw with rfl | ⟨w, ⟨t, hw⟩, w', hw', rfl⟩
  · exact ⟨_, part_of_arguments hname (.none hl hr)⟩
  · obtain ⟨items, hitems⟩ := repeated_of_kstar hw'
    exact ⟨_, part_of_arguments hname (.some hl hw (moreArguments_of_repeated hitems) hr)⟩

/-- What can be gone on with in one of the alternatives is the beginning of a part. -/
theorem viable_partOf (h : Viable (phrases (Expression (α := α))) q) :
    Viable (phrases (Part (α := α))) (partOf q) := by
  have hparenthesized : Viable (phrases (Part (α := α))) (parenthesizedOf q) := by
    refine (viable_parenthesizedOf h).mono ?_
    rintro _ ⟨_, ⟨l, hl, rfl⟩, _, ⟨w, ⟨t, hw⟩, _, ⟨r, hr, rfl⟩, rfl⟩, rfl⟩
    exact ⟨t, .parenthesized hl hw hr⟩
  have hassignment : Viable (phrases (Part (α := α))) (assignmentOf q) := by
    refine (viable_identifier.attempt.bind fun _ => viable_punct.attempt.bind fun _ =>
      h.map).mono ?_
    rintro _ ⟨_, ⟨name, hname, rfl⟩, _, ⟨_, ⟨eq, heq, rfl⟩, w, ⟨t, hw⟩, rfl⟩, rfl⟩
    exact ⟨_, .assignment hname heq hw⟩
  have hname : Viable (phrases (Part (α := α))) (nameLeaf : Parser (Tree α)) := by
    refine viable_identifier.map.mono ?_
    rintro _ ⟨name, hname, rfl⟩
    exact ⟨_, .name hname⟩
  exact hparenthesized.orElse <| hassignment.orElse <| viable_constant.orElse <|
    (viable_callOf h).orElse <| hname.orElse (.refuse hname.start)

/-- A part may be a power already, so behind it nothing is missing. -/
theorem viable_powerOf (h : Viable (phrases (Expression (α := α))) q) :
    Viable (phrases (Power (α := α))) (powerOf q) := by
  have hpart := viable_partOf h
  refine Viable.mono (hpart.attempt.bind fun base => Viable.optional_bind (M := 1) (N := 1)
    (viable_punct.attempt.bind fun _ => hpart) ?_ ?_) ?_
  · exact .pure base
  · exact fun _ => .pure _
  rintro _ ⟨w, ⟨t, hw⟩, w', hw', rfl⟩
  rw [mul_one] at hw'
  rcases hw' with rfl | ⟨_, ⟨o, ho, rfl⟩, w', ⟨t', hw'⟩, rfl⟩
  · exact mem_phrases (Power.part hw) (List.append_nil w).symm
  · exact ⟨_, .raised hw ho hw'⟩

theorem viable_sumOf (h : Viable (phrases (Expression (α := α))) q) :
    Viable (phrases fun w (t : Tree α) => ∃ last, Sum last w t) (sumOf q) := by
  refine viable_chain sum_grows additive?_eq_some ?_
    (viable_chain product_grows multiplicative?_eq_some ?_ (viable_powerOf h))
  · refine (completable_punct .plus).mono ?_
    rintro _ ⟨o, ho, rfl⟩
    exact ⟨o, ⟨.add, Or.inl rfl, ho⟩, rfl⟩
  · refine (completable_punct .star).mono ?_
    rintro _ ⟨o, ho, rfl⟩
    exact ⟨o, ⟨.mul, Or.inl rfl, ho⟩, rfl⟩

/-- Behind a comparison a sum is missing. -/
theorem viable_expressionOf (h : Viable (phrases (Expression (α := α))) q) :
    Viable (phrases (Expression (α := α))) (expressionOf q) := by
  have hsum := viable_sumOf h
  have hrelation : Viable (single fun o => ∃ r : Relation, o.kind = .punct r.mark)
      (satisfy .comparison relation?) := by
    refine .satisfy (fun ho => ⟨_, relation?_eq_some ho⟩) ((completable_punct .less).mono ?_)
    rintro _ ⟨o, ho, rfl⟩
    exact ⟨o, ⟨.less, ho⟩, rfl⟩
  refine Viable.mono (hsum.attempt.bind fun left => Viable.optional_bind (M := 1) (N := 1)
    (hrelation.bind fun r => hsum.map) ?_ ?_) ?_
  · exact .pure left
  · exact fun _ => .pure _
  rintro _ ⟨w, ⟨t, last, hw⟩, w', hw', rfl⟩
  rw [mul_one] at hw'
  rcases hw' with rfl | ⟨_, ⟨o, ⟨r, ho⟩, rfl⟩, w', ⟨t', last', hw'⟩, rfl⟩
  · exact mem_phrases (Expression.sum hw) (List.append_nil w).symm
  · exact ⟨_, .comparison hw ho hw'⟩

/-- Where an expression fails, an expression was begun. -/
theorem viable_expression :
    Viable (phrases (Expression (α := α))) (expression : Parser (Tree α)) := by
  refine fix_induction (fun _ => reads_expressionOf) expressionOf_congr
    (fun _ => Viable.of_agreeBelow) (.refuse ?_) fun _ => viable_expressionOf
  refine (viable_constant (α := α)).start.mono ?_
  rintro w ⟨t, hw⟩
  exact ⟨t, .sum (.single (.single (.part hw)))⟩

end Expressions

section Statements

variable {α : Type} [Literal α] {q : Parser (Tree α)}

/-! ## Statements -/

/-- An open block can be closed after any statement. -/
theorem viable_blockOf (h : Viable (phrases (Statement (α := α))) q) :
    Viable (phrases (Block (α := α))) (blockOf q) := by
  refine (viable_punct.attempt.bind fun _ => h.many.map.bind fun _ =>
    viable_punct.attempt.map).mono ?_
  rintro _ ⟨_, ⟨l, hl, rfl⟩, _, ⟨w, hw, _, ⟨r, hr, rfl⟩, rfl⟩, rfl⟩
  obtain ⟨items, hitems⟩ := repeated_of_kstar hw
  exact ⟨_, .mk hl (sequence_of_repeated hitems) hr⟩

/-- A second block may be begun and can then be finished. -/
theorem viable_ifOf (h : Viable (phrases (Statement (α := α))) q) :
    Viable (phrases (Statement (α := α))) (ifOf q) := by
  have hblock := viable_blockOf h
  refine Viable.mono (viable_keyword.attempt.bind fun _ =>
    (viable_parenthesizedOf viable_expression).bind fun c => hblock.bind fun yes =>
    Viable.optional_bind (viable_keyword.attempt.bind fun _ => hblock) (.pure _) fun _ =>
      .pure _) ?_
  rintro _ ⟨_, ⟨kw, hkw, rfl⟩, _, ⟨_, ⟨_, ⟨l, hl, rfl⟩, _, ⟨w, ⟨c, hw⟩, _, ⟨r, hr, rfl⟩, rfl⟩, rfl⟩,
    _, ⟨w', ⟨yes, hw'⟩, v, hv, rfl⟩, rfl⟩, rfl⟩
  rw [mul_one] at hv
  rcases hv with rfl | ⟨_, ⟨kw', hkw', rfl⟩, w'', ⟨no, hw''⟩, rfl⟩
  · exact mem_phrases (Statement.ifThen hkw hl hw hr hw') (by simp)
  · exact mem_phrases (Statement.ifThenElse hkw hl hw hr hw' hkw' hw'') (by simp)

theorem viable_whileOf (h : Viable (phrases (Statement (α := α))) q) :
    Viable (phrases (Statement (α := α))) (whileOf q) := by
  refine (viable_keyword.attempt.bind fun _ => viable_expression.bind fun _ =>
    (viable_blockOf h).map).mono ?_
  rintro _ ⟨_, ⟨kw, hkw, rfl⟩, _, ⟨w, ⟨c, hw⟩, w', ⟨body, hw'⟩, rfl⟩, rfl⟩
  exact mem_phrases (Statement.whileLoop hkw hw hw') rfl

/-- Every part of the head that is missing can be made up. -/
theorem viable_forOf (h : Viable (phrases (Statement (α := α))) q) :
    Viable (phrases (Statement (α := α))) (forOf q) := by
  refine (viable_keyword.attempt.bind fun _ => viable_punct.attempt.bind fun _ =>
    viable_expression.bind fun _ => viable_punct.attempt.bind fun _ =>
    viable_expression.bind fun _ => viable_punct.attempt.bind fun _ =>
    viable_expression.bind fun _ => viable_punct.attempt.bind fun _ =>
      (viable_blockOf h).map).mono ?_
  rintro _ ⟨_, ⟨kw, hkw, rfl⟩, _, ⟨_, ⟨l, hl, rfl⟩, _, ⟨w, ⟨first, hw⟩, _, ⟨_, ⟨s, hs, rfl⟩, _,
    ⟨w', ⟨c, hw'⟩, _, ⟨_, ⟨s', hs', rfl⟩, _, ⟨w'', ⟨step, hw''⟩, _, ⟨_, ⟨r, hr, rfl⟩, v, ⟨body, hv⟩,
    rfl⟩, rfl⟩, rfl⟩, rfl⟩, rfl⟩, rfl⟩, rfl⟩, rfl⟩
  exact ⟨_, .forLoop hkw hl hw hs hw' hs' hw'' hr hv⟩

theorem viable_returning :
    Viable (phrases (Statement (α := α))) (closed (returning : Parser (Tree α))) := by
  refine ((viable_keyword.attempt.bind fun _ =>
    (viable_parenthesizedOf viable_expression).map).bind fun _ => viable_punct.attempt.map).mono ?_
  rintro _ ⟨_, ⟨_, ⟨kw, hkw, rfl⟩, _, ⟨_, ⟨l, hl, rfl⟩, _, ⟨w, ⟨t, hw⟩, _, ⟨r, hr, rfl⟩, rfl⟩, rfl⟩,
    rfl⟩, _, ⟨s, hs, rfl⟩, rfl⟩
  exact mem_phrases (Statement.giveBack hkw hl hw hr hs) (by simp)

theorem viable_closedExpression :
    Viable (phrases (Statement (α := α))) (closed (expression : Parser (Tree α))) := by
  refine (viable_expression.bind fun _ => viable_punct.attempt.map).mono ?_
  rintro _ ⟨w, ⟨t, hw⟩, _, ⟨s, hs, rfl⟩, rfl⟩
  exact ⟨t, .expression hw hs⟩

/-- What can be gone on with in one of the alternatives is the beginning of a statement. -/
theorem viable_statementOf (h : Viable (phrases (Statement (α := α))) q) :
    Viable (phrases (Statement (α := α))) (statementOf q) :=
  (viable_ifOf h).orElse <| (viable_whileOf h).orElse <| viable_returning.orElse <|
    (viable_forOf h).orElse viable_closedExpression.attempt

/-- Where a statement fails, a statement was begun. -/
theorem viable_statement :
    Viable (phrases (Statement (α := α))) (statement : Parser (Tree α)) :=
  fix_induction (fun _ => reads_statementOf) statementOf_congr (fun _ => Viable.of_agreeBelow)
    (.refuse viable_closedExpression.start) fun _ => viable_statementOf

/-! ## Programs -/

/-- A definition that was begun can be finished with what is missing of its head and an empty block.
-/
theorem viable_definition :
    Viable (phrases (Definition (α := α))) (definition : Parser (Tree α)) := by
  have hparameter : Viable (phrases fun w n => w = [n] ∧ n.IsIdentifier) (attempt identifier) := by
    refine viable_identifier.attempt.mono ?_
    rintro _ ⟨n, hn, rfl⟩
    exact ⟨n, rfl, hn⟩
  refine (viable_keyword.attempt.bind fun _ => viable_identifier.attempt.bind fun _ =>
    viable_punct.attempt.bind fun _ => (viable_separated hparameter).bind fun _ =>
    viable_punct.attempt.bind fun _ => (viable_blockOf viable_statement).map).mono ?_
  rintro _ ⟨_, ⟨kw, hkw, rfl⟩, _, ⟨_, ⟨name, hname, rfl⟩, _, ⟨_, ⟨l, hl, rfl⟩, _, ⟨w, hw, _,
    ⟨_, ⟨r, hr, rfl⟩, w', ⟨body, hw'⟩, rfl⟩, rfl⟩, rfl⟩, rfl⟩, rfl⟩
  rcases hw with rfl | ⟨_, ⟨n, rfl, hn⟩, v, hv, rfl⟩
  · exact mem_phrases (Definition.mk hkw hname (.none hl hr) hw') rfl
  · obtain ⟨items, hitems⟩ := repeated_of_kstar hv
    have hparameters := Parameters.some hl hn (moreParameters_of_repeated hitems) hr
    exact mem_phrases (Definition.mk hkw hname hparameters hw') (by simp)

/-- Where reading a text fails, a sentence was begun. -/
theorem viable_production (entry : Entry) :
    Viable (phrases (entry.Sentence (α := α))) (entry.production : Parser (Tree α)) := by
  cases entry with
  | expression => exact viable_expression
  | statements =>
    refine viable_statement.many.map.mono ?_
    intro w hw
    obtain ⟨items, hitems⟩ := repeated_of_kstar hw
    exact ⟨_, items, sequence_of_repeated hitems, rfl⟩
  | program =>
    refine viable_definition.many.map.mono ?_
    intro w hw
    obtain ⟨items, hitems⟩ := repeated_of_kstar hw
    exact ⟨_, items, program_of_repeated hitems, rfl⟩

end Statements

end Grammar

end Fluxion

import Fluxion.Proofs.Grammar.Furthest

/-!
# The record of failures

A reading may be asked for one production after another, for the whole text as for a single token,
and may try any of them without going on where it fails. All that time it remembers the furthest
failure, until it starts anew or reports it (`Reading.Recorded`). Whatever is called, what it
remembers is the last of the furthest failures since then, and says what stands in the text at its
place.
-/

namespace Fluxion

open Fluxion.Parser Fluxion.Grammar

/-! ## What is left after a call -/

namespace Parser

section Suffixes

variable {β γ : Type} {p q : Parser β} {ts : List Token}

theorem suffix_satisfy {expected : Expectation} {accept : Token → Option β} (ts : List Token) :
    (satisfy expected accept ts).rest <:+ ts := by
  cases ts with
  | nil => exact List.suffix_refl []
  | cons o ts =>
    have hsuffix := List.suffix_cons o ts
    cases ho : accept o <;> simpa only [satisfy, ho, failing] using hsuffix

/-- What is left by the second parser is left of what the first has left. -/
theorem suffix_bind {f : β → Parser γ} (hp : (p ts).rest <:+ ts)
    (hf : ∀ b us, (f b us).rest <:+ us) : ((p >>= f) ts).rest <:+ ts := by
  cases hout : p ts with
  | mk result rest fs =>
    rw [hout] at hp
    cases result with
    | error e => rwa [bind_of_error hout]
    | ok b =>
      rw [bind_of_ok hout]
      exact (hf b rest).trans hp

theorem suffix_attempt (hp : (p ts).rest <:+ ts) : (attempt p ts).rest <:+ ts := by
  cases hout : p ts with
  | mk result rest fs =>
    rw [hout] at hp
    cases result with
    | ok b => simpa only [attempt, hout] using hp
    | error e => simp only [attempt, hout, List.suffix_refl]

theorem suffix_optional (hp : (p ts).rest <:+ ts) : (Parser.optional p ts).rest <:+ ts := by
  cases hout : p ts with
  | mk result rest fs =>
    rw [hout] at hp
    cases result with
    | ok b => simpa only [Parser.optional, hout] using hp
    | error e => simp only [Parser.optional, hout, List.suffix_refl]

theorem suffix_orElse (hp : (p ts).rest <:+ ts) (hq : (q ts).rest <:+ ts) :
    (orElse p q ts).rest <:+ ts := by
  cases hout : p ts with
  | mk result rest fs =>
    rw [hout] at hp
    cases result with
    | ok b => simpa only [orElse, hout] using hp
    | error e =>
      simp only [orElse, hout]
      split
      · exact List.suffix_refl ts
      · exact hq

theorem suffix_many (hp : ∀ us, (p us).rest <:+ us) (ts : List Token) :
    (many p ts).rest <:+ ts := by
  induction hlen : ts.length using Nat.strongRecOn generalizing ts with
  | ind n ih =>
    subst hlen
    have hfirst := suffix_optional (hp ts)
    cases hout : Parser.optional p ts with
    | mk result rest fs =>
      rw [hout] at hfirst
      cases result with
      | error e => rwa [many_of_error hout]
      | ok found =>
        cases found with
        | none => rwa [many_of_none hout]
        | some b =>
          by_cases hlt : rest.length < ts.length
          · rw [many_of_some hout hlt]
            exact (suffix_bind (ih _ hlt rest rfl) fun _ _ => List.suffix_refl _).trans hfirst
          · rwa [many_of_some_last hout hlt]

end Suffixes

/-- What a parser leaves is the end of what it was given, also where it fails. -/
theorem Composed.rest_suffix {β : Type} {p : Parser β} (h : Composed p) (ts : List Token) :
    (p ts).rest <:+ ts := by
  induction h generalizing ts with
  | pure b | refuse expected | abort => exact List.suffix_refl ts
  | satisfy => exact suffix_satisfy ts
  | bind _ _ hp hf => exact suffix_bind (hp ts) hf
  | attempt _ hp => exact suffix_attempt (hp ts)
  | optional _ hp => exact suffix_optional (hp ts)
  | orElse _ _ hp hq => exact suffix_orElse (hp ts) (hq ts)
  | many _ hp => exact suffix_many hp ts
  | limit q _ hagree hq =>
    rw [hagree _ ts (Nat.lt_succ_self _)]
    exact hq _ ts

end Parser

/-! ## What may be called -/

namespace Grammar

/-- The productions that yield trees. -/
inductive Production where
  | expression | sum | product | power | part | assignment | call
  | statement | sequence | block | ifStatement | whileStatement | forStatement | returning
  | definition | program
  deriving DecidableEq

variable {α : Type} [Literal α]

/-- The parser of a production. -/
def Production.parser : Production → Parser (Tree α)
  | expression => Grammar.expression
  | sum => Grammar.sum
  | product => Grammar.product
  | power => Grammar.power
  | part => Grammar.part
  | assignment => Grammar.assignment
  | call => Grammar.call
  | statement => Grammar.statement
  | sequence => Grammar.sequence
  | block => Grammar.block
  | ifStatement => Grammar.ifStatement
  | whileStatement => Grammar.whileStatement
  | forStatement => Grammar.forStatement
  | returning => Grammar.returning
  | definition => Grammar.definition
  | program => Grammar.program

/-- Every production is put together from readers of single tokens. -/
theorem Production.composed (g : Production) : Composed (g.parser : Parser (Tree α)) := by
  cases g with
  | expression => exact composed_expression
  | sum => exact composed_sumOf composed_expression
  | product => exact composed_chain (composed_powerOf composed_expression)
  | power => exact composed_powerOf composed_expression
  | part => exact composed_partOf composed_expression
  | assignment => exact composed_assignmentOf composed_expression
  | call => exact composed_callOf composed_expression
  | statement => exact composed_statement
  | sequence => exact composed_sequenceOf composed_statement
  | block => exact composed_blockOf composed_statement
  | ifStatement => exact composed_ifOf composed_statement
  | whileStatement => exact composed_whileOf composed_statement
  | forStatement => exact composed_forOf composed_statement
  | returning => exact composed_returning
  | definition => exact composed_definition
  | program => exact composed_program

/-- What may be called: the productions and the readers of single tokens, directly or on trial,
perhaps or again and again, and several of them in a row. -/
inductive Callable (α : Type) [Literal α] : {β : Type} → Parser β → Prop
  | production (g : Production) : Callable α (g.parser : Parser (Tree α))
  | punct (mark : Punct) : Callable α (Grammar.punct mark)
  | keyword (word : Keyword) : Callable α (Grammar.keyword word)
  | word : Callable α Grammar.word
  | integer : Callable α Grammar.integer
  | decimal : Callable α Grammar.decimal
  | number : Callable α (Grammar.number : Parser (Number α))
  | identifier : Callable α Grammar.identifier
  | attempt {β : Type} {p : Parser β} : Callable α p → Callable α (Parser.attempt p)
  | optional {β : Type} {p : Parser β} : Callable α p → Callable α (Parser.optional p)
  | separated {β γ : Type} {separator : Parser γ} {p : Parser β} :
      Callable α separator → Callable α p → Callable α (Parser.separated separator p)
  | done {β : Type} (b : β) : Callable α (pure b : Parser β)
  | next {β γ : Type} {p : Parser β} {f : β → Parser γ} :
      Callable α p → (∀ b, Callable α (f b)) → Callable α (p >>= f)

/-- What is called is a production, a reader of one token, or made of these. -/
theorem Callable.composed {β : Type} {p : Parser β} (h : Callable α p) : Composed p := by
  induction h with
  | production g => exact g.composed
  | punct mark => exact composed_punct
  | keyword word => exact composed_keyword
  | word | integer | decimal => exact .satisfy
  | number => exact composed_number
  | identifier => exact composed_identifier
  | attempt _ hp => exact hp.attempt
  | optional _ hp => exact hp.optional
  | separated _ _ hseparator hp => exact hseparator.separated hp
  | done b => exact .pure b
  | next _ _ hp hf => exact hp.bind hf

end Grammar

/-! ## Calls on a reading -/

namespace Reading

variable {α β : Type} [Literal α] {text : String} {r : Reading} {p : Parser β}

/-- The reading belongs to the text: its tokens, those left of them, and where failures were met. -/
structure Of (text : String) (r : Reading) : Prop where
  tokens : r.tokens = Token.significant text
  stop : r.stop = text.utf8ByteSize
  rest : r.rest <:+ Token.significant text
  failures : ∀ f ∈ r.failures, f.In (Token.significant text)

/-- A reading belongs to its text when it starts. -/
theorem of_start (text : String) : Of text (start text) :=
  ⟨rfl, rfl, List.suffix_refl _, List.forall_mem_nil _⟩

theorem Of.next (h : Of text r) : Of text r.next.2 where
  tokens := h.tokens
  stop := h.stop
  rest := (List.tail_suffix _).trans h.rest
  failures := h.failures

/-- To run a parser leaves an end of the list, and every new failure lies in it. -/
theorem Of.run (h : Of text r) (hp : Composed p) : Of text (r.run p).2 where
  tokens := h.tokens
  stop := h.stop
  rest := (hp.rest_suffix _).trans h.rest
  failures := List.forall_mem_append.2
    ⟨fun f hf => ((hp.isLocal.within _).failures f hf).mono h.rest, h.failures⟩

/-- After the whole text was read the failures met on the way are remembered, unless the furthest of
them was reported. -/
theorem complete_spec (p : Parser β) (r : Reading) : ∃ fs,
    (r.complete p).2 = { r with rest := (attempt (toEnd p) r.tokens).rest, failures := fs } ∧
      ((∃ f, (r.complete p).1 = .error (.unexpected f)) ∧ fs = [] ∨
        (∀ f, (r.complete p).1 ≠ .error (.unexpected f)) ∧
          fs = (attempt (toEnd p) r.tokens).failures) := by
  unfold complete
  dsimp only
  split
  · exact ⟨[], rfl, .inl ⟨⟨_, rfl⟩, rfl⟩⟩
  · next result hresult => exact ⟨_, rfl, .inr ⟨fun f hf => hresult f hf, rfl⟩⟩

/-- To read the whole text starts anew, so only the text matters. -/
theorem Of.complete (h : Of text r) (hp : Composed p) : Of text (r.complete p).2 := by
  have hwhole : Composed (attempt (toEnd p)) :=
    (hp.bind fun _ => composed_punct.attempt.bind fun _ => .pure _).attempt
  obtain ⟨fs, hr, hfs⟩ := complete_spec p r
  rw [hr]
  refine ⟨h.tokens, h.stop, ?_, ?_⟩
  · rw [← h.tokens]
    exact hwhole.rest_suffix _
  · rcases hfs with ⟨-, rfl⟩ | ⟨-, rfl⟩
    · exact List.forall_mem_nil _
    · rw [← h.tokens]
      exact (hwhole.isLocal.within _).failures

/-- The reading came of the text by some calls, and `fs` are the failures that were met since it
last started anew or reported one, the last first. -/
inductive Recorded (α : Type) [Literal α] (text : String) : Reading → List Failure → Prop
  | start : Recorded α text (start text) []
  | next {r : Reading} {fs : List Failure} : Recorded α text r fs → Recorded α text r.next.2 fs
  | run {β : Type} {p : Parser β} {r : Reading} {fs : List Failure} : Callable α p →
      Recorded α text r fs → Recorded α text (r.run p).2 ((p r.rest).failures ++ fs)
  | reported {entry : Entry} {f : Failure} {r : Reading} {fs : List Failure} :
      Recorded α text r fs →
      (r.complete (entry.production : Parser (Tree α))).1 = .error (.unexpected f) →
      Recorded α text (r.complete (entry.production : Parser (Tree α))).2 []
  | unreported {entry : Entry} {r : Reading} {fs : List Failure} : Recorded α text r fs →
      (∀ f, (r.complete (entry.production : Parser (Tree α))).1 ≠ .error (.unexpected f)) →
      Recorded α text (r.complete (entry.production : Parser (Tree α))).2
        ((entry.whole : Parser (Tree α)) r.tokens).failures

/-- The list that is kept here is the one that the reading remembers. -/
theorem Recorded.spec {fs : List Failure} (h : Recorded α text r fs) :
    Of text r ∧ r.failures = fs := by
  induction h with
  | start => exact ⟨of_start text, rfl⟩
  | next _ ih => exact ⟨ih.1.next, ih.2⟩
  | run hp _ ih =>
    obtain ⟨hof, rfl⟩ := ih
    exact ⟨hof.run hp.composed, rfl⟩
  | @reported entry f r _ _ hresult ih =>
    refine ⟨ih.1.complete (composed_production entry), ?_⟩
    -- a complete reading either reports the failures and keeps them, or forgets them
    obtain ⟨fs, hr, ⟨-, rfl⟩ | ⟨hanswer, -⟩⟩ := complete_spec (entry.production : Parser (Tree α)) r
    · rw [hr]
    · exact absurd hresult (hanswer f)
  | @unreported entry r _ _ hanswer ih =>
    refine ⟨ih.1.complete (composed_production entry), ?_⟩
    obtain ⟨fs, hr, ⟨⟨f, hresult⟩, -⟩ | ⟨-, rfl⟩⟩ :=
      complete_spec (entry.production : Parser (Tree α)) r
    · exact absurd hresult (hanswer f)
    · rw [hr]
      rfl

/-- What a reading remembers is the last of the furthest failures. -/
theorem Recorded.furthest?_eq_some_iff {fs : List Failure} (h : Recorded α text r fs)
    (f : Failure) : r.furthest? = some f ↔ f.LastFurthest text.utf8ByteSize fs := by
  obtain ⟨hof, rfl⟩ := h.spec
  rw [furthest?, hof.stop, Failure.furthest?_eq_some_iff]

/-- Nothing is remembered only if nothing has failed. -/
theorem Recorded.furthest?_eq_none_iff {fs : List Failure} (h : Recorded α text r fs) :
    r.furthest? = none ↔ fs = [] := by
  obtain ⟨-, rfl⟩ := h.spec
  rw [furthest?, Failure.furthest?_eq_none_iff]

/-- The failure that is remembered says what stands in the text at its place. -/
theorem Recorded.describes {fs : List Failure} {f : Failure} (h : Recorded α text r fs)
    (hf : r.furthest? = some f) : f.Describes text := by
  obtain ⟨hof, rfl⟩ := h.spec
  exact (hof.failures f (Failure.furthest?_eq_some hf).1).describes

/-- In `f(1;` a call was tried, and then the name was read. -/
def afterCall (α : Type) [Literal α] : Reading :=
  ((start "f(1;").run (attempt (Production.call.parser : Parser (Tree α)))).2.next.2

/-- The parenthesis that is missing is remembered, and not that an argument might have gone on. -/
theorem furthest?_afterCall {α : Type} [Literal α] : (afterCall α).furthest? =
    some ⟨.punct .closeParen, some ⟨.punct .semicolon, ";", 3⟩⟩ := by
  cbv

end Reading

namespace Entry

/-- An error that is not fatal is the last of the furthest failures that reading the whole text met,
and so is what a reading remembers after any calls, of the failures since it last started anew or
reported one. Both say what stands in the text at their place; and an entry that ends too early ends
at the first end mark, or at the end of a text without one. -/
theorem error_lastFurthest (α : Type) [Literal α] (text : String) :
    (∀ (entry : Entry) (e : SourceError), entry.parse (α := α) text = .error e →
      e.cause.isFatal = false →
      ∃ f : Failure, e = ⟨.unexpected f, f.span text.utf8ByteSize⟩ ∧ f.Describes text ∧
        (f.foundText? = none → e.span = Token.endSpan text) ∧
        f.LastFurthest text.utf8ByteSize
          ((entry.whole : Parser (Tree α)) (Token.significant text)).failures) ∧
    ∀ (r : Reading) (fs : List Failure), Reading.Recorded α text r fs →
      (r.furthest? = none ↔ fs = []) ∧
      ∀ f, (r.furthest? = some f ↔ f.LastFurthest text.utf8ByteSize fs) ∧
        (r.furthest? = some f → f.Describes text) := by
  refine ⟨fun entry e h hfatal => ?_, fun r fs h =>
    ⟨h.furthest?_eq_none_iff, fun f => ⟨h.furthest?_eq_some_iff f, h.describes⟩⟩⟩
  obtain ⟨-, g, -, hg, rfl⟩ := parse_eq_error h hfatal
  have hin := (whole_local.within _).failures g (Failure.furthest?_eq_some hg).1
  exact ⟨g, rfl, hin.describes, fun hnone => span_eq_endSpan hnone h,
    Failure.furthest?_eq_some_iff.1 hg⟩

/-- In `x*(y+)$` the parenthesis at byte 5 is reported, and after a call was tried on `f(1;` the
semicolon at byte 3 is remembered. -/
theorem error_lastFurthest_open_sum :
    (expression.parse (α := Float) "x*(y+)$" =
        .error ⟨.unexpected ⟨.expression, some ⟨.punct .closeParen, ")", 5⟩⟩, ⟨5, 6⟩⟩ ∧
      SyntaxError.isFatal (.unexpected ⟨.expression, some ⟨.punct .closeParen, ")", 5⟩⟩) = false ∧
      Failure.Describes "x*(y+)$" ⟨.expression, some ⟨.punct .closeParen, ")", 5⟩⟩ ∧
      Failure.LastFurthest 7
        ((expression.whole : Parser (Tree Float)) (Token.significant "x*(y+)$")).failures
        ⟨.expression, some ⟨.punct .closeParen, ")", 5⟩⟩) ∧
    ∃ fs, Reading.Recorded Float "f(1;" (Reading.afterCall Float) fs ∧
      (Reading.afterCall Float).furthest? =
        some ⟨.punct .closeParen, some ⟨.punct .semicolon, ";", 3⟩⟩ ∧
      Failure.LastFurthest 4 fs ⟨.punct .closeParen, some ⟨.punct .semicolon, ";", 3⟩⟩ ∧
      Failure.Describes "f(1;" ⟨.punct .closeParen, some ⟨.punct .semicolon, ";", 3⟩⟩ := by
  obtain ⟨f, he, hdescribes, -, hlast⟩ :=
    (error_lastFurthest Float "x*(y+)$").1 expression _ parse_open_sum rfl
  cases he
  -- the call of `f` failed at the semicolon, and one more token was taken since
  have hrecorded : Reading.Recorded Float "f(1;" (Reading.afterCall Float) _ :=
    .next (.run (.attempt (.production .call)) .start)
  have hremembered := Reading.furthest?_afterCall (α := Float)
  obtain ⟨hiff, hsays⟩ := ((error_lastFurthest Float "f(1;").2 _ _ hrecorded).2
    ⟨.punct .closeParen, some ⟨.punct .semicolon, ";", 3⟩⟩
  exact ⟨⟨parse_open_sum, rfl, hdescribes, hlast⟩, _, hrecorded, hremembered, hiff.1 hremembered,
    hsays hremembered⟩

end Entry

end Fluxion

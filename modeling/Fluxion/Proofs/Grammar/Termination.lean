import Fluxion.Proofs.Grammar.Progress

/-!
# Reading ends

The code of the productions is run here with a limit (`Production.runWithin`): no more than so many
calls are open at a time, and no loop makes more than so many turns. Where that is not enough there
is no outcome. Nothing else is asked: a production may call itself on the tokens that it was given,
and a loop goes on after a turn that has read nothing.

On any tokens a limit of eight times their number and the rank of the production is enough, and the
outcome is that of the parser (`Production.runWithin_eq`). So every text is read as each entry reads
it, within a limit that is linear in its tokens (`Entry.parse_terminates`).
-/

namespace Fluxion

open Grammar

namespace Grammar

/-! ## Running code within a limit -/

namespace Code

section Run

variable {α : Type} (answer : Production → List Token → Option (Outcome (Tree α))) (turns : ℕ)

/-- A loop of at most `n` turns. -/
def loopWithin {β : Type} (turn : List Token → Option (Outcome (Option β))) :
    ℕ → List Token → Option (Outcome (List β))
  | 0, _ => none
  | n + 1, ts => (turn ts).bind fun
    | ⟨.ok (some b), rest, failures⟩ => (loopWithin turn n rest).map fun others =>
        ⟨others.result.map (b :: ·), others.rest, others.failures ++ failures⟩
    | ⟨.ok none, rest, failures⟩ => some ⟨.ok [], rest, failures⟩
    | ⟨.error e, rest, failures⟩ => some ⟨.error e, rest, failures⟩

/-- The code run on tokens, if it is known how its calls end. -/
def runWith : {β : Type} → Code α β → List Token → Option (Outcome β)
  | _, .pure b, ts => some (Parser.succeed b ts)
  | _, .refuse expected, ts => some (Parser.refuse expected ts)
  | _, .abort name, ts => some (Parser.abort (.nameTooLong name) ts)
  | _, .satisfy expected accept, ts => some (Parser.satisfy expected accept ts)
  | _, .bind c f, ts => (c.runWith ts).bind fun
    | ⟨.ok b, rest, failures⟩ => ((f b).runWith rest).map (Outcome.after failures)
    | ⟨.error e, rest, failures⟩ => some ⟨.error e, rest, failures⟩
  | _, .attempt c, ts => (c.runWith ts).map fun out => Parser.attempt (fun _ => out) ts
  | _, .optional c, ts => (c.runWith ts).map fun out => Parser.optional (fun _ => out) ts
  | _, .orElse c d, ts => (c.runWith ts).bind fun
    | ⟨.ok b, rest, failures⟩ => some ⟨.ok b, rest, failures⟩
    | ⟨.error e, _, failures⟩ =>
      if e.isFatal then some ⟨.error e, ts, failures⟩
      else (d.runWith ts).map (Outcome.after failures)
  | _, .many c, ts =>
    loopWithin (fun us => (c.runWith us).map fun out => Parser.optional (fun _ => out) us) turns ts
  | _, .call g, ts => answer g ts

end Run

open Fluxion.Parser

variable {α β : Type} [Literal α] {answer : Production → List Token → Option (Outcome (Tree α))}
  {turns n r : ℕ} {c : Code α β} {ts : List Token}

/-- A loop each turn of which reads a token ends, if its turns end on all tokens that it gets to. -/
theorem loopWithin_eq {turn : List Token → Option (Outcome (Option β))}
    (Reached : List Token → Prop)
    (hc : Progresses c)
    (hturn : ∀ us, Reached us → turn us = some (Parser.optional c.meaning us))
    (hnext : ∀ us b mid, Reached us → Yields c.meaning us b mid → Reached mid)
    (hts : Reached ts) (hlt : ts.length < n) :
    loopWithin turn n ts = some (Parser.many c.meaning ts) := by
  induction n generalizing ts with
  | zero => exact absurd hlt (Nat.not_lt_zero _)
  | succ n ih =>
    rw [loopWithin, hturn ts hts, Parser.many]
    cases hout : Parser.optional c.meaning ts with
    | mk result rest fs =>
      rcases result with e | _ | b
      · rfl
      · rfl
      · have hb : Yields c.meaning ts b rest := yields_optional_some.1 ⟨fs, hout⟩
        have hless := hc hb
        have hrest := ih (hnext ts b rest hts hb) (by omega)
        simp only [Option.bind_some, if_pos hless, hrest, Option.map_some]

/-- Guarded code ends, if its calls do. -/
theorem runWith_eq (hc : Guarded c r) (hturns : ts.length < turns)
    (hcalls : ∀ g us, Calls c ts g us → answer g us = some (g.parser us)) :
    c.runWith answer turns ts = some (c.meaning ts) := by
  induction c generalizing r ts with
  | pure | refuse | abort | satisfy => rfl
  | bind c f ihc ihf =>
    rw [runWith, ihc hc.1 hturns fun g us h => hcalls g us (.first h)]
    cases hout : c.meaning ts with
    | mk result rest fs =>
      cases result with
      | error e => exact congrArg some (bind_of_error hout).symm
      | ok b =>
        have hb : Yields c.meaning ts b rest := ⟨fs, hout⟩
        have hle := c.composed.length_le hb
        obtain ⟨r', hf⟩ : ∃ r', Guarded (f b) r' := by
          rcases hc.2 with hf | ⟨-, hf⟩ <;> exact ⟨_, hf b⟩
        have hrest := ihf b hf (by omega) fun g us h => hcalls g us (.next hb h)
        simp only [Option.bind_some, hrest, Option.map_some]
        exact congrArg some (bind_of_ok (f := fun b => (f b).meaning) hout).symm
  | attempt c ih =>
    rw [runWith, ih hc hturns fun g us h => hcalls g us (.attempt h)]
    rfl
  | optional c ih =>
    rw [runWith, ih hc hturns fun g us h => hcalls g us (.optional h)]
    rfl
  | orElse c d ihc ihd =>
    rw [runWith, ihc hc.1 hturns fun g us h => hcalls g us (.either h)]
    show _ = some (Parser.orElse c.meaning d.meaning ts)
    cases hout : c.meaning ts with
    | mk result rest fs =>
      rcases result with (f | name) | b
      · have hd := ihd hc.2 hturns fun g us h => hcalls g us (.other ⟨f, rest, fs, hout⟩ h)
        simp only [Parser.orElse, hout, Option.bind_some, SyntaxError.isFatal, hd, Option.map_some,
          Bool.false_eq_true, if_false]
      · simp only [Parser.orElse, hout, Option.bind_some, SyntaxError.isFatal, if_true]
      · simp only [Parser.orElse, hout, Option.bind_some]
  | many c ih =>
    -- what is known of the calls when the loop is entered is known before every turn
    refine loopWithin_eq (fun us => us.length < turns ∧
      ∀ g vs, Calls (.many c) us g vs → answer g vs = some (g.parser vs))
      hc.2 ?_ ?_ ⟨hturns, hcalls⟩ hturns
    · rintro us ⟨hlt, hus⟩
      rw [ih hc.1 hlt fun g vs h => hus g vs (.turn h)]
      rfl
    · rintro us b mid ⟨hlt, hus⟩ hb
      exact ⟨(hc.2 hb).trans hlt, fun g vs h => hus g vs (.later hb h)⟩
  | call g => exact hcalls g ts .call

end Code

/-! ## The productions -/

variable {α : Type} [Literal α] {g : Production} {ts : List Token} {limit : ℕ}

/-- A production run on tokens, with at most `limit` calls open at a time and at most `limit` turns
of every loop. -/
def Production.runWithin : ℕ → Production → List Token → Option (Outcome (Tree α))
  | 0, _, _ => none
  | limit + 1, g, ts => (Code.body g).runWith (runWithin limit) (limit + 1) ts

/-- The limit is linear in the tokens: with every open call either the tokens or the rank got less.
-/
theorem Production.runWithin_eq (hlimit : ranks * ts.length + g.rank < limit) :
    g.runWithin limit ts = some (g.parser ts : Outcome (Tree α)) := by
  induction limit generalizing g ts with
  | zero => exact absurd hlimit (Nat.not_lt_zero _)
  | succ limit ih =>
    unfold ranks at *
    rw [runWithin, Code.runWith_eq (Code.guarded_body g) (by omega), Code.meaning, Code.parser_body]
    -- a call is one level deeper, which fewer tokens or a lower rank make up for
    intro h us hcall
    have hlower := hcall.lower (Code.guarded_body g)
    have hrank := h.rank_lt
    unfold ranks at hrank
    exact ih (by omega)

/-- An expression goes down through all its levels before it finds no token, which takes six open
calls. -/
example : Production.expression.runWithin 5 [] = (none : Option (Outcome (Tree Float))) := by
  cbv

end Grammar

/-! ## Whole texts -/

open Fluxion.Parser

theorem Reading.complete_congr {β : Type} {p q : Parser β} {r : Reading}
    (h : p r.tokens = q r.tokens) : r.complete p = r.complete q := by
  have hwhole : attempt (toEnd p) r.tokens = attempt (toEnd q) r.tokens :=
    attempt_congr (bind_congr h fun _ _ _ => rfl)
  rw [complete, hwhole, ← complete]

namespace Entry

/-- The production that an entry calls. -/
def goal : Entry → Production
  | expression => .expression
  | statements => .sequence
  | program => .program

variable {α : Type} [Literal α]

/-- The production that an entry calls means the parser of the entry. -/
theorem parser_goal (entry : Entry) : (entry.goal.parser : Parser (Tree α)) = entry.production := by
  cases entry <;> rfl

/-- The tree of a text, if its production is run within a limit. -/
def parseWithin (limit : ℕ) (entry : Entry) (text : String) :
    Option (Except SourceError (Tree α)) :=
  (entry.goal.runWithin limit (Token.significant text)).map fun out =>
    match ((Reading.start text).complete fun _ => out).1 with
    | .ok t => .ok t
    | .error e => .error ⟨e, e.span text.utf8ByteSize⟩

theorem parseWithin_eq {entry : Entry} {text : String} {limit : ℕ}
    (hlimit : Production.ranks * ((Token.significant text).length + 1) ≤ limit) :
    entry.parseWithin limit text = some (entry.parse text : Except SourceError (Tree α)) := by
  have hrank := entry.goal.rank_lt
  have hrun : entry.goal.runWithin limit (Token.significant text) =
      some (entry.goal.parser (Token.significant text) : Outcome (Tree α)) := by
    rw [Nat.mul_succ] at hlimit
    exact Production.runWithin_eq (by omega)
  have hcomplete : (Reading.start text).complete
      (fun _ => entry.production (Token.significant text)) =
      (Reading.start text).complete (entry.production : Parser (Tree α)) :=
    Reading.complete_congr rfl
  rw [parseWithin, hrun, parser_goal, Option.map_some, hcomplete]
  rfl

/-- What a production has read are tokens of the text that are not blank. -/
theorem read_of_yields {text : String} {g : Production} {ts rest : List Token} {t : Tree α}
    (hts : ts <:+ Token.significant text) (h : Yields g.parser ts t rest) :
    ∃ read, ts = read ++ rest ∧ (∀ o ∈ read, o.isBlank = false) ∧
      (g ≠ .sequence → g ≠ .program → read ≠ []) := by
  obtain ⟨fs, hout⟩ := h
  obtain ⟨read, hread⟩ := (g.composed (α := α)).rest_suffix ts
  rw [hout] at hread
  refine ⟨read, hread.symm, ?_, ?_⟩
  · intro o ho
    have hmem : o ∈ Token.significant text := hts.subset (hread ▸ List.mem_append_left _ ho)
    simpa using (List.mem_filter.1 hmem).2
  · rintro hsequence hprogram rfl
    have hlt := Code.progresses_call (α := α) hsequence hprogram ⟨fs, hout⟩
    rw [← hread] at hlt
    exact Nat.lt_irrefl _ hlt

/-- A production that goes well leaves the end of what it was given, and unless it reads statements
or definitions as many as there are it has read a token, which is not blank. Every turn of a loop
reads one, and with every call of a production the tokens left get fewer, or they stay the same and
its rank gets less. So every production ends on any tokens, and every entry on any text, within a
limit that is linear in them. -/
theorem parse_terminates (α : Type) [Literal α] :
    (∀ (text : String) (g : Production) (ts rest : List Token) (t : Tree α),
      ts <:+ Token.significant text → Yields g.parser ts t rest →
      ∃ read, ts = read ++ rest ∧ (∀ o ∈ read, o.isBlank = false) ∧
        (g ≠ .sequence → g ≠ .program → read ≠ [])) ∧
    (Progresses (number : Parser (Number α)) ∧ Progresses identifier ∧
      Progresses (condition : Parser (Tree α))) ∧
    (∀ g : Production, (Code.body g).parser Production.parser = (g.parser : Parser (Tree α))) ∧
    (∀ (g : Production) (β : Type) (turn : Code α β), Code.Repeats (Code.body g) turn →
      Progresses (turn.parser Production.parser)) ∧
    (∀ (g h : Production) (ts us : List Token), Code.Calls (Code.body g : Code α (Tree α)) ts h us →
      toLex (us.length, h.rank) < toLex (ts.length, g.rank)) ∧
    (∀ (g : Production) (ts : List Token) (limit : ℕ),
      Production.ranks * ts.length + g.rank < limit →
      g.runWithin limit ts = some (g.parser ts : Outcome (Tree α))) ∧
    ∀ (entry : Entry) (text : String) (limit : ℕ),
      Production.ranks * ((Token.significant text).length + 1) ≤ limit →
        entry.parseWithin limit text = some (entry.parse text : Except SourceError (Tree α)) := by
  have hnumber : Progresses (number : Parser (Number α)) := Code.progresses_number (α := α)
  have hcondition : Progresses (condition : Parser (Tree α)) := Code.progresses_parenthesized
  refine ⟨?_, ⟨hnumber, ?_, hcondition⟩, Code.parser_body, ?_, ?_, ?_, ?_⟩
  · intro text g ts rest t hts h
    exact read_of_yields hts h
  · have hidentifier := Code.progresses_identifier (α := α)
    rwa [Code.Progresses, Code.meaning, Code.parser_identifier] at hidentifier
  · exact fun g β turn h => h.progresses (Code.guarded_body g)
  · exact fun g h ts us hcall => hcall.descends
  · exact fun g ts limit => Production.runWithin_eq
  · exact fun entry text limit => parseWithin_eq

/-- `while f(x,({$` has eight tokens, and within a limit of seventy-two it is known that an
expression is missing at byte 11. -/
theorem parse_terminates_unclosed :
    Production.ranks * ((Token.significant "while f(x,(\x7b$").length + 1) ≤ 72 ∧
      statements.parseWithin (α := Float) 72 "while f(x,(\x7b$" =
        some (.error ⟨.unexpected ⟨.expression, some ⟨.punct .openCurly, "\x7b", 11⟩⟩,
          ⟨11, 12⟩⟩) := by
  have hlimit : Production.ranks * ((Token.significant "while f(x,(\x7b$").length + 1) ≤ 72 := by
    have htokens : (Token.significant "while f(x,(\x7b$").length = 8 := by cbv
    rw [htokens]
    decide
  have hparse : statements.parse (α := Float) "while f(x,(\x7b$" =
      .error ⟨.unexpected ⟨.expression, some ⟨.punct .openCurly, "\x7b", 11⟩⟩, ⟨11, 12⟩⟩ := by
    cbv
  obtain ⟨-, -, -, -, -, -, hend⟩ := parse_terminates Float
  exact ⟨hlimit, hparse ▸ hend statements _ 72 hlimit⟩

end Entry

end Fluxion

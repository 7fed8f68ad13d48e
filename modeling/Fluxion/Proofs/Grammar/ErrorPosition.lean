import Fluxion.Proofs.Grammar.Acceptance
import Fluxion.Proofs.Grammar.Continuation

/-!
# The place of an error

The error that is reported for a text is the furthest failure. Nothing behind it matters
(`Entry.parse_of_agreeing`): whatever else came behind the token of the error, reading would have
failed there with the same failures, since no run of it came any further. And everything before it
was right (`Entry.exists_accepted`): some text goes on from there and is accepted.
-/

namespace Fluxion

open Fluxion.Parser Fluxion.Grammar

/-- A token of a text, or the end of the text at a byte. -/
inductive Spot where
  | token (o : Token)
  | stop (byte : Nat)

/-- The tokens of a text that are not blank, and its end as a last one. -/
def Token.spots (text : String) : List Spot :=
  (significant text).map .token ++ [.stop text.utf8ByteSize]

/-- The tokens before a spot are the first of the text, and the spot is the next one behind them. -/
theorem Spot.exists_append_of_prefix {w us : List Token} {s : Spot} {n : Nat}
    (h : w.map Spot.token ++ [s] <+: us.map Spot.token ++ [.stop n]) :
    ∃ vs, us = w ++ vs ∧ [s] <+: vs.map Spot.token ++ [.stop n] := by
  induction w generalizing us with
  | nil => exact ⟨us, rfl, h⟩
  | cons o w ih =>
    cases us with
    | nil => cases (List.cons_prefix_cons.1 h).1
    | cons o' us =>
      obtain ⟨heq, htail⟩ := List.cons_prefix_cons.1 h
      cases heq
      obtain ⟨vs, rfl, hnext⟩ := ih htail
      exact ⟨vs, rfl, hnext⟩

/-- If a token is the next spot then it is the next token. -/
theorem Spot.prefix_token {w us : List Token} {o : Token} {n : Nat}
    (h : w.map Spot.token ++ [.token o] <+: us.map Spot.token ++ [.stop n]) :
    ∃ ts, us = w ++ o :: ts := by
  obtain ⟨vs, rfl, hnext⟩ := Spot.exists_append_of_prefix h
  cases vs with
  | nil => cases (List.cons_prefix_cons.1 hnext).1
  | cons o' vs =>
    cases (List.cons_prefix_cons.1 hnext).1
    exact ⟨vs, rfl⟩

/-- The end of the text comes after all of its tokens. -/
theorem Spot.prefix_stop {w us : List Token} {m n : Nat}
    (h : w.map Spot.token ++ [.stop m] <+: us.map Spot.token ++ [.stop n]) : us = w ∧ n = m := by
  obtain ⟨vs, rfl, hnext⟩ := Spot.exists_append_of_prefix h
  cases vs with
  | nil =>
    cases (List.cons_prefix_cons.1 hnext).1
    exact ⟨List.append_nil w, rfl⟩
  | cons o vs => cases (List.cons_prefix_cons.1 hnext).1

namespace Failure

variable {stop stop' : Nat} {f g : Failure} {fs : List Failure}

/-- What a failure points at in a text that ends at byte `stop`. -/
def spot (stop : Nat) (f : Failure) : Spot :=
  match f.found with
  | none => .stop stop
  | some o => .token o

/-- The furthest failure is one of them, and none is further. -/
theorem furthest?_spec (stop : Nat) (fs : List Failure) :
    (furthest? stop fs).elim (fs = []) fun g =>
      g ∈ fs ∧ ∀ f ∈ fs, f.position stop ≤ g.position stop := by
  induction fs with
  | nil => rfl
  | cons f fs ih =>
    rw [furthest?]
    -- the later failures have a furthest one, which the first is compared with
    cases hfs : furthest? stop fs with
    | none =>
      rw [hfs] at ih
      have hnil : fs = [] := ih
      subst hnil
      exact ⟨List.mem_cons_self, fun f' hf' => by rw [List.mem_singleton.1 hf']⟩
    | some g =>
      rw [hfs] at ih
      obtain ⟨hmem, hmax⟩ := ih
      by_cases hle : g.position stop ≤ f.position stop
      · simp only [if_pos hle]
        refine ⟨List.mem_cons_self, List.forall_mem_cons.2 ⟨Nat.le_refl _, fun f' hf' => ?_⟩⟩
        exact (hmax f' hf').trans hle
      · simp only [if_neg hle]
        exact ⟨List.mem_cons_of_mem _ hmem,
          List.forall_mem_cons.2 ⟨Nat.le_of_not_le hle, hmax⟩⟩

theorem exists_furthest? (stop : Nat) (h : f ∈ fs) : ∃ g, furthest? stop fs = some g := by
  have hspec := furthest?_spec stop fs
  cases hfs : furthest? stop fs with
  | none =>
    rw [hfs] at hspec
    have hnil : fs = [] := hspec
    rw [hnil] at h
    cases h
  | some g => exact ⟨g, rfl⟩

/-- The furthest failure is one of them, and none is further. -/
theorem furthest?_eq_some (h : furthest? stop fs = some g) :
    g ∈ fs ∧ ∀ f ∈ fs, f.position stop ≤ g.position stop := by
  have hspec := furthest?_spec stop fs
  rwa [h] at hspec

/-- The end of the text matters only to failures that are met there. -/
theorem furthest?_congr (h : ∀ f ∈ fs, f.position stop = f.position stop') :
    furthest? stop fs = furthest? stop' fs := by
  induction fs with
  | nil => rfl
  | cons f fs ih =>
    have ih := ih fun f' hf' => h f' (List.mem_cons_of_mem _ hf')
    rw [furthest?, furthest?, ← ih]
    cases hfs : furthest? stop fs with
    | none => rfl
    | some g =>
      have hg := h g (List.mem_cons_of_mem _ (furthest?_eq_some hfs).1)
      simp only [h f List.mem_cons_self, hg]

theorem position_of_found {o : Token} (stop : Nat) (h : f.found = some o) :
    f.position stop = o.start := by
  rw [position, span, h]
  rfl

/-- If the furthest failure is at a token before the end, it is the furthest wherever the end is. -/
theorem furthest?_of_found {o : Token} (h : furthest? stop fs = some g) (hfound : g.found = some o)
    (hlt : o.start < stop) (stop' : Nat) : furthest? stop' fs = some g := by
  rw [← h]
  refine furthest?_congr fun f hf => ?_
  cases hf' : f.found with
  | some o' => rw [position_of_found _ hf', position_of_found _ hf']
  | none =>
    -- a failure at the end would be further
    have hle := (furthest?_eq_some h).2 f hf
    rw [position_of_found _ hfound, position, span, hf'] at hle
    exact absurd hlt (Nat.not_lt_of_le hle)

/-- What is found behind a token is further on than the token. -/
theorem In.lt_position {text : String} {w ts : List Token} {o : Token} (hf : f.In ts)
    (h : Token.significant text = w ++ o :: ts) : o.start < f.position text.utf8ByteSize := by
  obtain ⟨hbehind, hend⟩ := Token.start_lt_of_significant h
  obtain ⟨s, hs, hfound⟩ := hf
  cases s with
  | nil =>
    rw [position, span, hfound]
    exact hend
  | cons o' s =>
    rw [position_of_found _ hfound]
    exact hbehind o' (hs.subset List.mem_cons_self)

end Failure

namespace Entry

variable {α : Type} [Literal α] {entry : Entry} {text text' : String}

/-- What a whole text is read with. -/
def whole (entry : Entry) : Parser (Tree α) := attempt (Reading.toEnd entry.production)

theorem whole_local : Local (entry.whole : Parser (Tree α)) :=
  ((local_production entry).bind fun _ => local_punct.attempt.bind fun _ => .pure _).attempt

/-- Wherever reading a whole text fails, a sentence was begun that an end mark can come after. -/
theorem whole_viable :
    Viable (phrases (entry.Sentence (α := α)) * single (·.kind = .punct .dollar))
      (entry.whole : Parser (Tree α)) :=
  ((viable_production entry).bind fun _ => viable_punct.attempt.map).attempt

/-- What is reported is the furthest failure, which need not be the one that ended the reading. -/
theorem parse_of_unexpected {f : Failure}
    (h : ((entry.whole : Parser (Tree α)) (Token.significant text)).result =
      .error (.unexpected f)) :
    entry.parse (α := α) text =
      let g := (Failure.furthest? text.utf8ByteSize
        ((entry.whole : Parser (Tree α)) (Token.significant text)).failures).getD f
      .error ⟨.unexpected g, g.span text.utf8ByteSize⟩ := by
  unfold whole at h
  unfold parse Reading.complete Reading.start whole
  simp only [h]
  rfl

/-- An error that is not fatal is the furthest failure. -/
theorem parse_eq_error {e : SourceError} (h : entry.parse (α := α) text = .error e)
    (hfatal : e.cause.isFatal = false) :
    ∃ f g, ((entry.whole : Parser (Tree α)) (Token.significant text)).result =
        .error (.unexpected f) ∧
      Failure.furthest? text.utf8ByteSize
        ((entry.whole : Parser (Tree α)) (Token.significant text)).failures = some g ∧
      e = ⟨.unexpected g, g.span text.utf8ByteSize⟩ := by
  -- only the answer of a production that fails on one token is an ordinary error
  cases hresult : ((entry.whole : Parser (Tree α)) (Token.significant text)).result with
  | ok t =>
    unfold whole at hresult
    unfold parse Reading.complete Reading.start at h
    simp only [hresult] at h
    cases h
  | error e' =>
    cases e' with
    | nameTooLong name =>
      unfold whole at hresult
      unfold parse Reading.complete Reading.start at h
      simp only [hresult] at h
      cases h
      cases hfatal
    | unexpected f =>
      have hf := (whole_local.within _).recorded f hresult
      obtain ⟨g, hg⟩ := Failure.exists_furthest? text.utf8ByteSize hf
      have hparse := parse_of_unexpected hresult
      rw [hg, h] at hparse
      exact ⟨f, g, rfl, hg, Except.error.inj hparse⟩

/-- The answer depends on the tokens and the length of the text. -/
theorem parse_congr (h : Token.significant text' = Token.significant text)
    (hsize : text'.utf8ByteSize = text.utf8ByteSize) :
    entry.parse (α := α) text' = entry.parse text := by
  unfold parse Reading.start
  rw [h, hsize]

/-- What stands behind the token of the furthest failure does not matter. -/
theorem parse_of_agreeing {f g : Failure} {w ts ts' : List Token} {o : Token}
    (hresult : ((entry.whole : Parser (Tree α)) (Token.significant text)).result =
      .error (.unexpected f))
    (hg : Failure.furthest? text.utf8ByteSize
      ((entry.whole : Parser (Tree α)) (Token.significant text)).failures = some g)
    (hfound : g.found = some o) (h : Token.significant text = w ++ o :: ts)
    (h' : Token.significant text' = w ++ o :: ts') :
    entry.parse (α := α) text' = .error ⟨.unexpected g, o.span⟩ := by
  have hmax := (Failure.furthest?_eq_some hg).2
  have hlocal : Local (entry.whole : Parser (Tree α)) := whole_local
  have hstays := hlocal.stays w o ts ts'
  rw [← h, ← h'] at hstays
  cases hout : (entry.whole : Parser (Tree α)) (Token.significant text) with
  | mk result rest fs =>
    cases hout' : (entry.whole : Parser (Tree α)) (Token.significant text') with
    | mk result' rest' fs' =>
      rw [hout] at hresult hg hmax hstays
      rw [hout'] at hstays
      cases hresult
      cases hstays with
      | further hf hin =>
        -- a failure behind `o` would be further than the furthest
        have hfurther := hin.lt_position h
        have hle := hmax _ hf
        rw [Failure.position_of_found _ hfound] at hle
        omega
      | fatal he hfatal =>
        cases he
        cases hfatal
      | beyond hb _ => cases hb
      | refused =>
        have hresult' : ((entry.whole : Parser (Tree α)) (Token.significant text')).result =
            .error (.unexpected f) := by rw [hout']
        have hparse := parse_of_unexpected hresult'
        have hend := (Token.start_lt_of_significant h).2
        rw [hout', Failure.furthest?_of_found hg hfound hend] at hparse
        rw [hparse]
        simp only [Option.getD_some, Failure.span, hfound]

/-- Wherever a failure is met, the tokens before are the beginning of an accepted text, which starts
as this one does up to the end of those tokens. -/
theorem exists_accepted {f : Failure}
    (hf : f ∈ ((entry.whole : Parser (Tree α)) (Token.significant text)).failures) :
    ∃ w s, Token.significant text = w ++ s ∧ f.found = s.head? ∧
      ∃ kept rest more v, ∃ t : Tree α, text = kept ++ rest ∧ Token.significant kept = w ∧
        kept.utf8ByteSize = Token.endOf 0 w ∧ Token.significant (kept ++ more) = w ++ v ∧
        entry.parse (kept ++ more) = .ok t := by
  obtain ⟨w, s, hsplit, hfound, ps, hps, hphrase⟩ := whole_viable.fails hf
  obtain ⟨kept, rest, more, v, htext, hkept, hsize, hmore, hv, hjoined⟩ :=
    Token.exists_continuation hsplit hps
  obtain ⟨u, ⟨t, ht⟩, _, ⟨o, ho, rfl⟩, hwhole⟩ := hphrase v hv hjoined
  obtain ⟨t', hyields⟩ := ht.yields [] ho
  have hwhole : u ++ [o] = w ++ v := hwhole
  rw [hwhole, ← hmore] at hyields
  exact ⟨w, s, hsplit, hfound, kept, rest, more, v, t', htext, hkept, hsize, hmore,
    parse_eq_ok.2 ⟨o, [], hyields, ho⟩⟩

/-- The error that `f` stands for is decided where it is, after the tokens `before`. -/
structure Decisive (α : Type) [Literal α] (entry : Entry) (text : String) (f : Failure)
    (before : List Token) : Prop where
  /-- The error is at the token after those, or at the end of the text if they are all. -/
  place : before.map .token ++ [f.spot text.utf8ByteSize] <+: Token.spots text
  /-- Nothing that comes behind that token repairs a text or makes for another error. -/
  lost : ∀ text', before.map .token ++ [f.spot text.utf8ByteSize] <+: Token.spots text' →
    entry.parse (α := α) text' = .error ⟨.unexpected f, f.span text.utf8ByteSize⟩
  /-- What there is of the text up to the end of the tokens before begins an accepted text, which
  has further tokens after them. -/
  begun : ∃ kept rest more after, ∃ t : Tree α, text = kept ++ rest ∧
    Token.significant kept = before ∧ kept.utf8ByteSize = Token.endOf 0 before ∧
    Token.significant (kept ++ more) = before ++ after ∧ entry.parse (kept ++ more) = .ok t

/-- The place of an error that is not fatal is decisive: all texts that are the same up to it fail
with the same error, and what is before it can be gone on with to a text that is accepted. -/
theorem decisive_of_parse_eq_error {e : SourceError} (h : entry.parse (α := α) text = .error e)
    (hfatal : e.cause.isFatal = false) :
    ∃ f before, e = ⟨.unexpected f, f.span text.utf8ByteSize⟩ ∧
      Decisive α entry text f before := by
  obtain ⟨f, g, hresult, hg, rfl⟩ := parse_eq_error h hfatal
  obtain ⟨before, s, hsplit, hfound, hbegun⟩ := exists_accepted (Failure.furthest?_eq_some hg).1
  refine ⟨g, before, rfl, ?_, ?_, hbegun⟩
  · cases s with
    | nil => simp [Failure.spot, hfound, Token.spots, hsplit]
    | cons o ts =>
      refine ⟨ts.map .token ++ [.stop text.utf8ByteSize], ?_⟩
      simp [Failure.spot, hfound, Token.spots, hsplit]
  -- any text with the same tokens so far fails at the same place, for the same reason
  · intro text' hprefix
    cases s with
    | nil =>
      rw [List.append_nil] at hsplit
      rw [Failure.spot, hfound] at hprefix
      obtain ⟨hsame, hsize⟩ := Spot.prefix_stop hprefix
      rw [parse_congr (hsame.trans hsplit.symm) hsize, h]
    | cons o ts =>
      rw [Failure.spot, hfound] at hprefix
      obtain ⟨ts', hsplit'⟩ := Spot.prefix_token hprefix
      rw [parse_of_agreeing hresult hg hfound hsplit hsplit', Failure.span, hfound]
      rfl

/-- An operand is missing at the closing mark, and this is the furthest failure. -/
theorem parse_open_sum : expression.parse (α := α) "x*(y+)$" =
    .error ⟨.unexpected ⟨.expression, some ⟨.punct .closeParen, ")", 5⟩⟩, ⟨5, 6⟩⟩ := by
  cbv

/-- In `x*(y+)$` an expression is missing before the parenthesis at byte 5. -/
theorem decisive_open_sum :
    (expression.parse (α := Float) "x*(y+)$" =
      .error ⟨.unexpected ⟨.expression, some ⟨.punct .closeParen, ")", 5⟩⟩, ⟨5, 6⟩⟩) ∧
    SyntaxError.isFatal (.unexpected ⟨.expression, some ⟨.punct .closeParen, ")", 5⟩⟩) = false ∧
    ∃ before, Decisive Float expression "x*(y+)$"
      ⟨.expression, some ⟨.punct .closeParen, ")", 5⟩⟩ before := by
  obtain ⟨f, before, he, hdecisive⟩ := decisive_of_parse_eq_error (parse_open_sum (α := Float)) rfl
  cases he
  exact ⟨parse_open_sum, rfl, before, hdecisive⟩

end Entry

end Fluxion

import Fluxion.Proofs.Grammar.Composed

/-!
# Parsers look no further than they get

What a parser makes of a list of tokens does not depend on tokens that it does not come to. So if
the tokens after some token `o` are others, either everything is as before, or the parser had come
further than `o`: it read `o`, or failed behind it, or gave up altogether (`Outcome.Stays`). All
ways of putting parsers together keep this (`Local`), since none of them looks at a token without
reading it or failing at it, and none tries anything else after an alternative that went well.
-/

namespace Fluxion

/-- The failure was met at a place in `ts`: what it found is the next token there. -/
def Failure.In (f : Failure) (ts : List Token) : Prop := ∃ s, s <:+ ts ∧ f.found = s.head?

/-- A place in some tokens is a place in all that end with them. -/
theorem Failure.In.mono {f : Failure} {ts us : List Token} (h : f.In ts) (hsuffix : ts <:+ us) :
    f.In us := by
  obtain ⟨s, hs, hfound⟩ := h
  exact ⟨s, hs.trans hsuffix, hfound⟩

namespace Outcome

variable {β : Type} {out out' : Outcome β} {pre mid ts us tail tail' : List Token} {o : Token}

/-- What is left and where the failures are lies in `ts`, and an error that is not fatal is among
the failures. -/
structure Within (ts : List Token) (out : Outcome β) : Prop where
  rest : ∀ b, out.result = .ok b → out.rest <:+ ts
  failures : ∀ f ∈ out.failures, f.In ts
  recorded : ∀ f, out.result = .error (.unexpected f) → f ∈ out.failures

/-- `out` comes of `pre ++ o :: tail`, and `out'` of `pre ++ o :: tail'`. Either they are the same,
or `out` came further than `o`. -/
inductive Stays (pre : List Token) (o : Token) (tail tail' : List Token) :
    Outcome β → Outcome β → Prop
  | further {out out' : Outcome β} {f : Failure} :
      f ∈ out.failures → f.In tail → Stays pre o tail tail' out out'
  | fatal {out out' : Outcome β} {e : SyntaxError} :
      out.result = .error e → e.isFatal = true → Stays pre o tail tail' out out'
  | beyond {out out' : Outcome β} {b : β} :
      out.result = .ok b → out.rest <:+ tail → Stays pre o tail tail' out out'
  | refused {e : SyntaxError} {r r' : List Token} {fs : List Failure} :
      Stays pre o tail tail' ⟨.error e, r, fs⟩ ⟨.error e, r', fs⟩
  | yielded {b : β} {mid : List Token} {fs : List Failure} : mid <:+ pre →
      Stays pre o tail tail' ⟨.ok b, mid ++ o :: tail, fs⟩ ⟨.ok b, mid ++ o :: tail', fs⟩

theorem Within.mono (h : out.Within ts) (hsuffix : ts <:+ us) : out.Within us where
  rest b hb := (h.rest b hb).trans hsuffix
  failures f hf := (h.failures f hf).mono hsuffix
  recorded := h.recorded

/-- Failures met earlier, in the same tokens, can be added. -/
theorem Within.after (h : out.Within ts) {fs : List Failure} (hfs : ∀ f ∈ fs, f.In ts) :
    (out.after fs).Within ts where
  rest := h.rest
  failures f hf := (List.mem_append.1 hf).elim (h.failures f) (hfs f)
  recorded f hf := List.mem_append_left _ (h.recorded f hf)

/-- An error leaves nothing that matters. -/
theorem Within.error {e : SyntaxError} {rest rest' : List Token} {fs : List Failure} {γ : Type}
    (h : (⟨.error e, rest, fs⟩ : Outcome β).Within ts) :
    (⟨.error e, rest', fs⟩ : Outcome γ).Within ts where
  rest _ hb := (nomatch hb)
  failures := h.failures
  recorded f hf := h.recorded f (by cases hf; rfl)

theorem Stays.mono (h : Stays mid o tail tail' out out') (hsuffix : mid <:+ pre) :
    Stays pre o tail tail' out out' := by
  cases h with
  | further hf hin => exact .further hf hin
  | fatal he hfatal => exact .fatal he hfatal
  | beyond hb hrest => exact .beyond hb hrest
  | refused => exact .refused
  | yielded hmid => exact .yielded (hmid.trans hsuffix)

/-- The same earlier failures can be added on both sides. -/
theorem Stays.after (h : Stays pre o tail tail' out out') (fs : List Failure) :
    Stays pre o tail tail' (out.after fs) (out'.after fs) := by
  cases h with
  | further hf hin => exact .further (List.mem_append_left _ hf) hin
  | fatal he hfatal => exact .fatal he hfatal
  | beyond hb hrest => exact .beyond hb hrest
  | refused => exact .refused
  | yielded hmid => exact .yielded hmid

/-- Whatever comes of tokens behind `o` came further than `o`, whatever was met before. -/
theorem Within.stays_after (h : out.Within ts) (hsuffix : ts <:+ tail) {fs : List Failure} :
    Stays pre o tail tail' (out.after fs) out' := by
  cases hresult : out.result with
  | ok b => exact .beyond hresult ((h.rest b hresult).trans hsuffix)
  | error e =>
    cases e with
    | unexpected f =>
      have hf := h.recorded f hresult
      exact .further (List.mem_append_left _ hf) ((h.failures f hf).mono hsuffix)
    | nameTooLong name => exact .fatal hresult rfl

end Outcome

namespace Parser

variable {β γ : Type}

section Failures

variable {p q : Parser β} {f : β → Parser γ} {ts : List Token} {g : Failure}

/-! ## The failures that are met -/

/-- The failures of two parsers one after another are those of the first, and if it went well those
of the second. -/
theorem mem_failures_bind : g ∈ ((p >>= f) ts).failures ↔
    g ∈ (p ts).failures ∨ ∃ b rest, Yields p ts b rest ∧ g ∈ (f b rest).failures := by
  cases hp : p ts with
  | mk result rest fs =>
    cases result with
    | error e =>
      rw [bind_of_error hp]
      simp [Yields, hp]
    | ok b =>
      rw [bind_of_ok hp]
      constructor
      · intro hg
        rcases List.mem_append.1 hg with hg | hg
        · exact Or.inr ⟨b, rest, ⟨fs, hp⟩, hg⟩
        · exact Or.inl hg
      · rintro (hg | ⟨b', rest', ⟨fs', hy⟩, hg⟩)
        · exact List.mem_append_right _ hg
        · cases hp.symm.trans hy
          exact List.mem_append_left _ hg

@[simp] theorem failures_attempt : (attempt p ts).failures = (p ts).failures := by
  cases hp : p ts with
  | mk result rest fs => cases result <;> simp only [attempt, hp]

@[simp] theorem failures_optional : (Parser.optional p ts).failures = (p ts).failures := by
  cases hp : p ts with
  | mk result rest fs => cases result <;> simp only [Parser.optional, hp]

/-- The second alternative meets failures only if the first has refused. -/
theorem mem_failures_orElse : g ∈ (orElse p q ts).failures ↔
    g ∈ (p ts).failures ∨ Refuses p ts ∧ g ∈ (q ts).failures := by
  cases hp : p ts with
  | mk result rest fs =>
    cases result with
    | ok b => simp [orElse, Refuses, hp]
    | error e => cases e <;> simp [orElse, Refuses, hp, SyntaxError.isFatal, Outcome.after, or_comm]

/-! ## A repetition, by what its first turn comes to -/

variable {b : β} {rest : List Token} {fs : List Failure}

/-- Reading a value if there is one is a choice between the value and nothing. -/
theorem optional_eq (p : Parser β) :
    Parser.optional p = orElse (p >>= fun b => pure (some b)) (pure none) := by
  funext ts
  cases hp : p ts with
  | mk result rest fs =>
    cases result with
    | ok b =>
      simp only [Parser.optional, orElse, hp, bind_of_ok hp]
      rfl
    | error e =>
      simp only [Parser.optional, orElse, hp, bind_of_error hp]
      cases e <;> rfl

theorem many_of_error {e : SyntaxError} (h : Parser.optional p ts = ⟨.error e, rest, fs⟩) :
    many p ts = ⟨.error e, rest, fs⟩ := by
  rw [many, h]

/-- The repetition ends where the parser reads nothing more. -/
theorem many_of_none (h : Parser.optional p ts = ⟨.ok none, rest, fs⟩) :
    many p ts = ⟨.ok [], rest, fs⟩ := by
  rw [many, h]

/-- After a turn that has read a token the repetition goes on with the rest. -/
theorem many_of_some (h : Parser.optional p ts = ⟨.ok (some b), rest, fs⟩)
    (hlt : rest.length < ts.length) :
    many p ts = ((many p >>= fun bs => pure (b :: bs)) rest).after fs := by
  rw [many, h]
  simp only [if_pos hlt]
  cases hmany : many p rest with
  | mk result rest' fs' =>
    cases result with
    | ok bs =>
      rw [bind_of_ok hmany]
      rfl
    | error e =>
      rw [bind_of_error hmany]
      rfl

/-- A value that takes no token is the last. -/
theorem many_of_some_last (h : Parser.optional p ts = ⟨.ok (some b), rest, fs⟩)
    (hlt : ¬ rest.length < ts.length) : many p ts = ⟨.ok [b], rest, fs⟩ := by
  rw [many, h]
  simp only [if_neg hlt]

/-- The failures of a repetition are those of its first turn and of the turns after it. -/
theorem mem_failures_many (h : g ∈ (many p ts).failures) : g ∈ (p ts).failures ∨
    ∃ b rest, Yields p ts b rest ∧ rest.length < ts.length ∧ g ∈ (many p rest).failures := by
  cases hopt : Parser.optional p ts with
  | mk result rest fs =>
    have hfirst : g ∈ fs → g ∈ (p ts).failures := by
      rw [← failures_optional, hopt]
      exact id
    cases result with
    | error e =>
      rw [many_of_error hopt] at h
      exact Or.inl (hfirst h)
    | ok found =>
      cases found with
      | none =>
        rw [many_of_none hopt] at h
        exact Or.inl (hfirst h)
      | some b =>
        -- a turn that read nothing is the last one
        by_cases hlt : rest.length < ts.length
        · rw [many_of_some hopt hlt] at h
          rcases List.mem_append.1 h with h | h
          · rcases mem_failures_bind.1 h with h | ⟨bs, rest', -, h⟩
            · exact Or.inr ⟨b, rest, yields_optional_some.1 ⟨fs, hopt⟩, hlt, h⟩
            · exact (nomatch h)
          · exact Or.inl (hfirst h)
        · rw [many_of_some_last hopt hlt] at h
          exact Or.inl (hfirst h)

/-- The failures of the first turn are failures of the repetition. -/
theorem mem_failures_many_of_first (h : g ∈ (p ts).failures) : g ∈ (many p ts).failures := by
  rw [← failures_optional] at h
  cases hopt : Parser.optional p ts with
  | mk result rest fs =>
    rw [hopt] at h
    cases result with
    | error e => rwa [many_of_error hopt]
    | ok found =>
      cases found with
      | none => rwa [many_of_none hopt]
      | some b =>
        by_cases hlt : rest.length < ts.length
        · rw [many_of_some hopt hlt]
          exact List.mem_append_right _ h
        · rwa [many_of_some_last hopt hlt]

end Failures

/-- The parser looks no further than it gets. -/
structure Local (p : Parser β) : Prop where
  within : ∀ ts, (p ts).Within ts
  stays : ∀ pre o tail tail',
    (p (pre ++ o :: tail)).Stays pre o tail tail' (p (pre ++ o :: tail'))

namespace Local

variable {p q : Parser β} {f : β → Parser γ} {pre ts tail tail' : List Token} {o : Token}
variable {expected : Expectation}

/-! ## Single steps -/

theorem pure (b : β) : Local (Pure.pure b : Parser β) where
  within ts := ⟨fun _ _ => List.suffix_refl ts, fun _ h => (nomatch h), fun _ h => (nomatch h)⟩
  stays _ _ _ _ := .yielded (List.suffix_refl _)

theorem within_failing {found : Option Token} {rest : List Token}
    (h : (⟨expected, found⟩ : Failure).In ts) :
    (failing expected found rest : Outcome β).Within ts where
  rest _ hb := (nomatch hb)
  failures f hf := by rwa [List.mem_singleton.1 hf]
  recorded f hf := by cases hf; exact List.mem_singleton_self _

/-- The failure is at the next token, and that is the same on both sides: `o`, or one before it. -/
theorem refuse (expected : Expectation) : Local (Parser.refuse expected : Parser β) where
  within ts := within_failing ⟨ts, List.suffix_refl ts, rfl⟩
  stays pre o tail tail' := by
    have hhead : (pre ++ o :: tail).head? = (pre ++ o :: tail').head? := by cases pre <;> rfl
    show (failing expected _ _).Stays pre o tail tail' (failing expected _ _)
    rw [hhead]
    exact .refused

theorem abort {name : Token} : Local (Parser.abort (.nameTooLong name) : Parser β) where
  within _ := ⟨fun _ h => (nomatch h), fun _ h => (nomatch h), fun _ h => (nomatch h)⟩
  stays _ _ _ _ := .fatal rfl rfl

/-- One token is looked at. If it is accepted it is read, and otherwise there is a failure at it. -/
theorem satisfy {accept : Token → Option β} : Local (Parser.satisfy expected accept) where
  within ts := by
    cases ts with
    | nil => exact within_failing ⟨[], List.suffix_refl [], rfl⟩
    | cons o ts =>
      cases ho : accept o with
      | none =>
        simp only [Parser.satisfy, ho]
        exact within_failing ⟨o :: ts, List.suffix_refl _, rfl⟩
      | some b =>
        simp only [Parser.satisfy, ho]
        exact ⟨fun _ _ => List.suffix_cons o ts, List.forall_mem_nil _, fun _ h => by cases h⟩
  stays pre o tail tail' := by
    -- the token that is looked at is `o` itself or one in front of it
    cases pre with
    | nil =>
      cases ho : accept o with
      | none =>
        simp only [List.nil_append, Parser.satisfy, ho]
        exact .refused
      | some b =>
        simp only [List.nil_append, Parser.satisfy, ho]
        exact .beyond rfl (List.suffix_refl tail)
    | cons o' pre =>
      cases ho : accept o' with
      | none =>
        simp only [List.cons_append, Parser.satisfy, ho]
        exact .refused
      | some b =>
        simp only [List.cons_append, Parser.satisfy, ho]
        exact .yielded (List.suffix_cons o' pre)

/-! ## One after another -/

/-- What the second parser leaves and meets lies in what the first has left. -/
theorem within_bind (hp : (p ts).Within ts) (hf : ∀ b, Local (f b)) :
    ((p >>= f) ts).Within ts := by
  cases hout : p ts with
  | mk result rest fs =>
    rw [hout] at hp
    cases result with
    | error e =>
      rw [bind_of_error hout]
      exact hp.error
    | ok b =>
      rw [bind_of_ok hout]
      exact (((hf b).within rest).mono (hp.rest b rfl)).after hp.failures

/-- Either the first parser came further than `o` already, or it left the same tokens up to `o`,
from where the second goes on. -/
theorem stays_bind
    (hp : (p (pre ++ o :: tail)).Stays pre o tail tail' (p (pre ++ o :: tail')))
    (hf : ∀ b, Local (f b)) :
    ((p >>= f) (pre ++ o :: tail)).Stays pre o tail tail' ((p >>= f) (pre ++ o :: tail')) := by
  cases hout : p (pre ++ o :: tail) with
  | mk result rest fs =>
    cases hout' : p (pre ++ o :: tail') with
    | mk result' rest' fs' =>
      rw [hout, hout'] at hp
      -- what happened in the first parser decides whether the second was run at all
      cases hp with
      | further hg hin =>
        refine .further (mem_failures_bind.2 (Or.inl ?_)) hin
        rwa [hout]
      | @fatal _ _ e he hfatal =>
        cases he
        rw [bind_of_error hout]
        exact .fatal rfl hfatal
      | @beyond _ _ b hb hrest =>
        cases hb
        rw [bind_of_ok hout]
        exact ((hf b).within rest).stays_after hrest
      | refused =>
        rw [bind_of_error hout, bind_of_error hout']
        exact .refused
      | @yielded b mid _ hmid =>
        rw [bind_of_ok hout, bind_of_ok hout']
        exact (((hf b).stays mid o tail tail').after fs).mono hmid

theorem bind (hp : Local p) (hf : ∀ b, Local (f b)) : Local (p >>= f) where
  within ts := within_bind (hp.within ts) hf
  stays pre o tail tail' := stays_bind (hp.stays pre o tail tail') hf

/-! ## Attempts and alternatives -/

/-- A failure that is undone has still been met. -/
theorem attempt (hp : Local p) : Local (attempt p) where
  within ts := by
    have hwithin := hp.within ts
    cases hout : p ts with
    | mk result rest fs =>
      rw [hout] at hwithin
      cases result with
      | error e =>
        simp only [Parser.attempt, hout]
        exact hwithin.error
      | ok b =>
        simp only [Parser.attempt, hout]
        exact hwithin
  stays pre o tail tail' := by
    have hstays := hp.stays pre o tail tail'
    cases hout : p (pre ++ o :: tail) with
    | mk result rest fs =>
      cases hout' : p (pre ++ o :: tail') with
      | mk result' rest' fs' =>
        rw [hout, hout'] at hstays
        -- only the rest is put back, so each way to agree is kept
        cases hstays with
        | further hg hin => exact .further (by rwa [failures_attempt, hout]) hin
        | @fatal _ _ e he hfatal =>
          cases he
          simp only [Parser.attempt, hout]
          exact .fatal rfl hfatal
        | @beyond _ _ b hb hrest =>
          cases hb
          simp only [Parser.attempt, hout]
          exact .beyond rfl hrest
        | refused =>
          simp only [Parser.attempt, hout, hout']
          exact .refused
        | yielded hmid =>
          simp only [Parser.attempt, hout, hout']
          exact .yielded hmid

/-- The second alternative starts where the first did. If the first came further than `o`, its
failures remain. -/
theorem orElse (hp : Local p) (hq : Local q) : Local (Parser.orElse p q) where
  within ts := by
    have hwithin := hp.within ts
    cases hout : p ts with
    | mk result rest fs =>
      rw [hout] at hwithin
      cases result with
      | ok b =>
        simp only [Parser.orElse, hout]
        exact hwithin
      | error e =>
        simp only [Parser.orElse, hout]
        cases e with
        | unexpected g => exact (hq.within ts).after hwithin.failures
        | nameTooLong name => exact hwithin.error
  stays pre o tail tail' := by
    have hstays := hp.stays pre o tail tail'
    cases hout : p (pre ++ o :: tail) with
    | mk result rest fs =>
      cases hout' : p (pre ++ o :: tail') with
      | mk result' rest' fs' =>
        rw [hout, hout'] at hstays
        -- the second alternative is tried only if the first was refused without reading
        cases hstays with
        | further hg hin =>
          refine .further (mem_failures_orElse.2 (Or.inl ?_)) hin
          rwa [hout]
        | @fatal _ _ e he hfatal =>
          cases he
          simp only [Parser.orElse, hout, hfatal, if_true]
          exact .fatal rfl hfatal
        | @beyond _ _ b hb hrest =>
          cases hb
          simp only [Parser.orElse, hout]
          exact .beyond rfl hrest
        | @refused e _ _ _ =>
          simp only [Parser.orElse, hout, hout']
          cases e with
          | unexpected g => exact (hq.stays pre o tail tail').after fs
          | nameTooLong name => exact .refused
        | yielded hmid =>
          simp only [Parser.orElse, hout, hout']
          exact .yielded hmid

theorem optional (hp : Local p) : Local (Parser.optional p) := by
  rw [optional_eq]
  exact (hp.bind fun b => .pure (some b)).orElse (.pure none)

/-! ## Repetition -/

/-- By induction on the tokens, as every turn but the last reads one. -/
theorem within_many (hp : Local p) (ts : List Token) : (Parser.many p ts).Within ts := by
  induction hlen : ts.length using Nat.strongRecOn generalizing ts with
  | ind n ih =>
    subst hlen
    have hwithin := hp.optional.within ts
    cases hout : Parser.optional p ts with
    | mk result rest fs =>
      rw [hout] at hwithin
      cases result with
      | error e =>
        rw [many_of_error hout]
        exact hwithin.error
      | ok found =>
        have hrest : rest <:+ ts := hwithin.rest found rfl
        have hdone : ∀ bs, (⟨.ok bs, rest, fs⟩ : Outcome (List β)).Within ts := fun _ =>
          ⟨fun _ _ => hrest, hwithin.failures, fun _ h => (nomatch h)⟩
        cases found with
        | none =>
          rw [many_of_none hout]
          exact hdone []
        | some b =>
          -- with fewer tokens left the induction hypothesis applies; otherwise this turn was the
          -- last
          by_cases hlt : rest.length < ts.length
          · rw [many_of_some hout hlt]
            have hmore := within_bind (ih _ hlt rest rfl) fun bs => .pure (b :: bs)
            exact (hmore.mono hrest).after hwithin.failures
          · rw [many_of_some_last hout hlt]
            exact hdone [b]

/-- Turn by turn, until one comes further than `o` or the tokens up to `o` are read. -/
theorem stays_many (hp : Local p) (pre : List Token) (o : Token) (tail tail' : List Token) :
    (Parser.many p (pre ++ o :: tail)).Stays pre o tail tail'
      (Parser.many p (pre ++ o :: tail')) := by
  induction hlen : pre.length using Nat.strongRecOn generalizing pre with
  | ind n ih =>
    subst hlen
    have hstays := hp.optional.stays pre o tail tail'
    cases hout : Parser.optional p (pre ++ o :: tail) with
    | mk result rest fs =>
      cases hout' : Parser.optional p (pre ++ o :: tail') with
      | mk result' rest' fs' =>
        rw [hout, hout'] at hstays
        cases hstays with
        | further hg hin =>
          refine .further (mem_failures_many_of_first ?_) hin
          rwa [← failures_optional, hout]
        | @fatal _ _ e he hfatal =>
          cases he
          rw [many_of_error hout]
          exact .fatal rfl hfatal
        | @beyond _ _ found hfound hrest =>
          cases hfound
          cases found with
          | none =>
            rw [many_of_none hout]
            exact .beyond rfl hrest
          | some b =>
            by_cases hlt : rest.length < (pre ++ o :: tail).length
            · rw [many_of_some hout hlt]
              have hmore := within_bind (within_many hp rest) fun bs => .pure (b :: bs)
              exact hmore.stays_after hrest
            · rw [many_of_some_last hout hlt]
              exact .beyond rfl hrest
        | refused =>
          rw [many_of_error hout, many_of_error hout']
          exact .refused
        | @yielded found mid _ hmid =>
          cases found with
          | none =>
            rw [many_of_none hout, many_of_none hout']
            exact .yielded hmid
          | some b =>
            -- a turn leaves fewer tokens in one of the two runs exactly if it does in the other
            have hlength : ∀ us, (mid ++ o :: us).length < (pre ++ o :: us).length ↔
                mid.length < pre.length := by
              intro us
              simp only [List.length_append, Nat.add_lt_add_iff_right]
            by_cases hlt : mid.length < pre.length
            · rw [many_of_some hout ((hlength tail).2 hlt),
                many_of_some hout' ((hlength tail').2 hlt)]
              have hmore := stays_bind (ih _ hlt mid rfl) fun bs => .pure (b :: bs)
              exact (hmore.after fs).mono hmid
            · rw [many_of_some_last hout (mt (hlength tail).1 hlt),
                many_of_some_last hout' (mt (hlength tail').1 hlt)]
              exact .yielded hmid

theorem many (hp : Local p) : Local (Parser.many p) := ⟨within_many hp, stays_many hp⟩

/-! ## Recursion -/

/-- Only the two lists in question are looked at, so agreement below a length above both is enough.
-/
theorem of_agreeBelow (h : ∀ n, ∃ q, Local q ∧ Grammar.AgreeBelow n p q) : Local p where
  within ts := by
    obtain ⟨q, hq, hagree⟩ := h (ts.length + 1)
    rw [hagree ts (Nat.lt_succ_self _)]
    exact hq.within ts
  stays pre o tail tail' := by
    obtain ⟨q, hq, hagree⟩ := h ((pre ++ o :: tail).length + (pre ++ o :: tail').length + 1)
    rw [hagree _ (by omega), hagree _ (by omega)]
    exact hq.stays pre o tail tail'

end Local

/-- Parsers that are put together from readers of single tokens look no further than they get. -/
theorem Composed.isLocal {p : Parser β} (h : Composed p) : Local p := by
  induction h with
  | pure b => exact .pure b
  | refuse expected => exact .refuse expected
  | abort => exact .abort
  | satisfy => exact .satisfy
  | bind _ _ hp hf => exact hp.bind hf
  | attempt _ hp => exact hp.attempt
  | optional _ hp => exact hp.optional
  | orElse _ _ hp hq => exact hp.orElse hq
  | many _ hp => exact hp.many
  | limit q _ hagree hq => exact .of_agreeBelow fun n => ⟨q n, hq n, hagree n⟩

end Parser

namespace Grammar

open Fluxion.Parser

variable {α : Type} [Literal α]

theorem local_punct {mark : Punct} : Local (punct mark) := .satisfy

/-- A text is read no further than reading gets. -/
theorem local_production (entry : Entry) : Local (entry.production : Parser (Tree α)) :=
  (composed_production entry).isLocal

end Grammar

end Fluxion

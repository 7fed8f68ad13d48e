import Fluxion.Proofs.Grammar.Lookahead
import Fluxion.Proofs.Token.Prefixes
import Mathlib

/-!
# Wherever reading fails, it could have gone on

A parser may fail only where the tokens before the failure are the beginning of a phrase: it always
takes what is right for as long as anything is (`Viable`). This holds of every failure that is met,
not only of the furthest, so all ways of putting parsers together keep it. What is missing of the
phrase is given as pieces of text (`Completable`), since the tokens that are to come have no place
yet. Only a minus sign cares about places: what is added after it has to start where it ends.
-/

namespace Fluxion

open Computability

theorem joined_nil (v : List Token) : Joined [] v := fun _ h => (nomatch h)

/-- Only the first token behind matters. -/
theorem Joined.of_append_right {w v u : List Token} (h : Joined w (v ++ u)) : Joined w v := by
  intro sign hsign hminus o ho
  refine h sign hsign hminus o ?_
  rw [List.head?_append, Option.mem_def.1 ho]
  rfl

theorem Joined.of_append_left {w w' v : List Token} (h : Joined (w ++ w') v) : Joined w' v := by
  intro sign hsign
  refine h sign ?_
  rw [List.getLast?_append, Option.mem_def.1 hsign]
  rfl

/-- There are marks and words that go on from `w` to a phrase, wherever they stand. -/
def Completable (L : Language Token) (w : List Token) : Prop :=
  ∃ ps : List String, (∀ p ∈ ps, IsPiece p) ∧
    ∀ v, Spelled ps v → Joined w v → w ++ v ∈ L

namespace Completable

variable {L M : Language Token} {w v : List Token}

theorem of_mem (h : w ∈ L) : Completable L w := by
  refine ⟨[], fun _ hp => (nomatch hp), ?_⟩
  rintro v rfl -
  rwa [List.append_nil]

theorem mono (h : Completable L w) (hle : L ≤ M) : Completable M w := by
  obtain ⟨ps, hps, h⟩ := h
  exact ⟨ps, hps, fun v hv hjoined => hle (h v hv hjoined)⟩

/-- What is missing of the first part is added, then all of the second. -/
theorem mul_left (h : Completable L w) (h' : Completable M []) : Completable (L * M) w := by
  obtain ⟨ps, hps, h⟩ := h
  obtain ⟨qs, hqs, h'⟩ := h'
  refine ⟨ps ++ qs, fun p hp => (List.mem_append.1 hp).elim (hps p) (hqs p), ?_⟩
  intro v hv hjoined
  obtain ⟨v, u, rfl, hv, hu⟩ := spelled_append.1 hv
  rw [← List.append_assoc]
  exact Language.append_mem_mul (h v hv hjoined.of_append_right) (h' u hu (joined_nil u))

theorem mul_right (hw : w ∈ L) (h : Completable M v) : Completable (L * M) (w ++ v) := by
  obtain ⟨ps, hps, h⟩ := h
  refine ⟨ps, hps, fun u hu hjoined => ?_⟩
  rw [List.append_assoc]
  exact Language.append_mem_mul hw (h u hu hjoined.of_append_left)

end Completable

/-- The failure is met after tokens of `ts` that can be gone on with to a phrase of `L`. -/
def Failure.InPhrase (L : Language Token) (f : Failure) (ts : List Token) : Prop :=
  ∃ w s, ts = w ++ s ∧ f.found = s.head? ∧ Completable L w

namespace Failure.InPhrase

variable {L M : Language Token} {f : Failure} {w ts : List Token}

/-- A failure at the first token, where a phrase may start. -/
theorem of_head (hfound : f.found = ts.head?) (h : Completable L []) : f.InPhrase L ts :=
  ⟨[], ts, rfl, hfound, h⟩

theorem mono (h : f.InPhrase L ts) (hle : L ≤ M) : f.InPhrase M ts := by
  obtain ⟨w, s, rfl, hfound, hw⟩ := h
  exact ⟨w, s, rfl, hfound, hw.mono hle⟩

/-- A failure in the first part is one in the whole, if the second can be made up. -/
theorem mul_left (h : f.InPhrase L ts) (h' : Completable M []) : f.InPhrase (L * M) ts := by
  obtain ⟨w, s, rfl, hfound, hw⟩ := h
  exact ⟨w, s, rfl, hfound, hw.mul_left h'⟩

/-- A failure in the second part is one in the whole, behind the tokens of the first. -/
theorem mul_right (hw : w ∈ L) (h : f.InPhrase M ts) : f.InPhrase (L * M) (w ++ ts) := by
  obtain ⟨v, s, rfl, hfound, hv⟩ := h
  exact ⟨w ++ v, s, (List.append_assoc ..).symm, hfound, .mul_right hw hv⟩

end Failure.InPhrase

/-- The phrases that stand for something. -/
def phrases {β : Type} (phrase : List Token → β → Prop) : Language Token :=
  {w | ∃ b, phrase w b}

theorem mem_phrases {β : Type} {phrase : List Token → β → Prop} {v w : List Token} {b : β}
    (h : phrase v b) (hv : v = w) : w ∈ phrases phrase := ⟨b, hv ▸ h⟩

/-- The phrases of one token. -/
def single (P : Token → Prop) : Language Token := {w | ∃ o, P o ∧ w = [o]}

/-- Every phrase of one piece is that of a token that fits. -/
theorem completable_single {P : Token → Prop} {p : String} (hp : IsPiece p)
    (h : ∀ v, Spelled [p] v → ∃ o, v = [o] ∧ P o) : Completable (single P) [] := by
  refine ⟨[p], fun q hq => ?_, fun v hv _ => ?_⟩
  · rwa [List.mem_singleton.1 hq]
  · obtain ⟨o, rfl, ho⟩ := h v hv
    exact ⟨o, ho, rfl⟩

theorem append_mem_kstar {L : Language Token} {w w' : List Token} (hw : w ∈ L) (hw' : w' ∈ L∗) :
    w ++ w' ∈ L∗ :=
  mul_kstar_le_kstar (a := L) (Language.append_mem_mul hw hw')

/-- Any number of phrases stand for a list of what each of them stands for. -/
theorem Grammar.repeated_of_kstar {β : Type} {phrase : List Token → β → Prop} {w : List Token}
    (h : w ∈ (phrases phrase)∗) : ∃ bs, Grammar.Repeated phrase w bs := by
  obtain ⟨ws, rfl, h⟩ := h
  induction ws with
  | nil => exact ⟨[], .nil⟩
  | cons w ws ih =>
    obtain ⟨b, hb⟩ := h w List.mem_cons_self
    obtain ⟨bs, hbs⟩ := ih fun v hv => h v (List.mem_cons_of_mem _ hv)
    exact ⟨b :: bs, .cons hb hbs⟩

namespace Parser

variable {β γ : Type}

/-- The parser reads phrases of `L`, and wherever it fails, the tokens before can be gone on with to
such a phrase. -/
structure Viable (L : Language Token) (p : Parser β) : Prop where
  start : Completable L []
  reads : ∀ {ts b rest}, Yields p ts b rest → ∃ w ∈ L, ts = w ++ rest
  fails : ∀ {ts f}, f ∈ (p ts).failures → f.InPhrase L ts

namespace Viable

variable {L M N : Language Token} {p q : Parser β} {f : β → Parser γ} {expected : Expectation}

theorem mono (h : Viable L p) (hle : L ≤ M) : Viable M p where
  start := h.start.mono hle
  reads hy := by
    obtain ⟨w, hw, rfl⟩ := h.reads hy
    exact ⟨w, hle hw, rfl⟩
  fails hf := (h.fails hf).mono hle

theorem pure (b : β) : Viable 1 (Pure.pure b : Parser β) where
  start := .of_mem rfl
  reads hy := ⟨[], rfl, (yields_pure.1 hy).2.symm⟩
  fails hf := (nomatch hf)

/-- A parser that reads nothing fails where a phrase may begin. -/
theorem refuse (h : Completable L []) : Viable L (Parser.refuse expected : Parser β) where
  start := h
  reads hy := (not_yields_refuse hy).elim
  fails hf := by
    rw [List.mem_singleton.1 hf]
    exact .of_head rfl h

/-- A reader of one token fails at that token only. -/
theorem found_of_mem_satisfy {accept : Token → Option β} {ts : List Token} {g : Failure}
    (h : g ∈ (Parser.satisfy expected accept ts).failures) : g.found = ts.head? := by
  cases ts with
  | nil => rw [List.mem_singleton.1 h]; rfl
  | cons o ts =>
    cases ho : accept o with
    | none =>
      simp only [Parser.satisfy, ho] at h
      rw [List.mem_singleton.1 h]
      rfl
    | some b =>
      simp only [Parser.satisfy, ho] at h
      cases h

/-- A reader of one token, for the language of the tokens that it may accept. -/
theorem satisfy {accept : Token → Option β} {P : Token → Prop}
    (h : ∀ {o b}, accept o = some b → P o) (hstart : Completable (single P) []) :
    Viable (single P) (Parser.satisfy expected accept) where
  start := hstart
  reads hy := by
    obtain ⟨o, rfl, ho⟩ := yields_satisfy.1 hy
    exact ⟨[o], ⟨o, h ho, rfl⟩, rfl⟩
  fails hf := .of_head (found_of_mem_satisfy hf) hstart

theorem attempt (h : Viable L p) : Viable L (attempt p) where
  start := h.start
  reads hy := h.reads (yields_attempt.1 hy)
  fails hf := h.fails (by rwa [failures_attempt] at hf)

theorem orElse (h : Viable L p) (h' : Viable L q) : Viable L (Parser.orElse p q) where
  start := h.start
  reads hy := by
    rcases yields_orElse.1 hy with hy | ⟨-, hy⟩
    · exact h.reads hy
    · exact h'.reads hy
  fails hf := by
    rcases mem_failures_orElse.1 hf with hf | ⟨-, hf⟩
    · exact h.fails hf
    · exact h'.fails hf

/-! ## One after another -/

/-- One parser after another is for the product of their languages. Where the first fails, the
second can be made up. -/
theorem bind [Nonempty β] (h : Viable L p) (h' : ∀ b, Viable M (f b)) :
    Viable (L * M) (p >>= f) where
  start := h.start.mul_left (h' (Classical.arbitrary β)).start
  reads hy := by
    obtain ⟨b, mid, hb, hnext⟩ := yields_bind.1 hy
    obtain ⟨w, hw, rfl⟩ := h.reads hb
    obtain ⟨w', hw', rfl⟩ := (h' b).reads hnext
    exact ⟨w ++ w', Language.append_mem_mul hw hw', (List.append_assoc ..).symm⟩
  fails hf := by
    rcases mem_failures_bind.1 hf with hfirst | ⟨b, mid, hb, hnext⟩
    · exact (h.fails hfirst).mul_left (h' (Classical.arbitrary β)).start
    · obtain ⟨w, hw, rfl⟩ := h.reads hb
      exact .mul_right hw ((h' b).fails hnext)

theorem map {g : β → γ} (h : Viable L p) : Viable L (p >>= fun b => Pure.pure (g b)) where
  start := h.start
  reads hy := by
    obtain ⟨b, mid, hb, hpure⟩ := yields_bind.1 hy
    obtain ⟨-, rfl⟩ := yields_pure.1 hpure
    exact h.reads hb
  fails hf := by
    rcases mem_failures_bind.1 hf with hfirst | ⟨b, mid, -, hpure⟩
    · exact h.fails hfirst
    · exact (nomatch hpure)

/-- What is optional is there or not, and what follows may depend on it. -/
theorem optional_bind [Nonempty β] {f : Option β → Parser γ} (h : Viable L p)
    (hnone : Viable M (f none)) (hsome : ∀ b, Viable N (f (some b))) :
    Viable (M + L * N) (Parser.optional p >>= f) where
  start := hnone.start.mono le_self_add
  reads hy := by
    obtain ⟨found, mid, hfound, hnext⟩ := yields_bind.1 hy
    cases found with
    | none =>
      obtain ⟨-, rfl⟩ := yields_optional_none.1 hfound
      obtain ⟨w, hw, rfl⟩ := hnone.reads hnext
      exact ⟨w, Or.inl hw, rfl⟩
    | some b =>
      obtain ⟨w, hw, rfl⟩ := (h.bind hsome).reads
        (yields_bind.2 ⟨b, mid, yields_optional_some.1 hfound, hnext⟩)
      exact ⟨w, Or.inr hw, rfl⟩
  fails hf := by
    -- the failures are those of the two parsers that there are without a choice
    have hright : ∀ {ts g}, g ∈ ((p >>= fun b => f (some b)) ts).failures →
        g.InPhrase (M + L * N) ts :=
      fun hg => ((h.bind hsome).fails hg).mono le_add_self
    rcases mem_failures_bind.1 hf with hfirst | ⟨found, mid, hfound, hnext⟩
    · rw [failures_optional] at hfirst
      exact hright (mem_failures_bind.2 (Or.inl hfirst))
    · cases found with
      | none =>
        obtain ⟨-, rfl⟩ := yields_optional_none.1 hfound
        exact (hnone.fails hnext).mono le_self_add
      | some b =>
        exact hright (mem_failures_bind.2 (Or.inr ⟨b, mid, yields_optional_some.1 hfound, hnext⟩))

/-! ## Repetition -/

/-- A repetition is for any number of phrases. It may end after each, so a failure in the next one
is in the language too. -/
theorem many (h : Viable L p) : Viable L∗ (Parser.many p) where
  start := .of_mem (Language.nil_mem_kstar L)
  reads {ts bs rest} hy := by
    induction hlen : ts.length using Nat.strongRecOn generalizing ts bs with
    | ind n ih =>
      rcases hy.many_cases with ⟨rfl, rfl⟩ | ⟨b, mid, more, rfl, hb, hmore⟩
      · exact ⟨[], Language.nil_mem_kstar L, rfl⟩
      · obtain ⟨w, hw, rfl⟩ := h.reads hb
        rcases hmore with ⟨hlt, hmore⟩ | ⟨rfl, rfl⟩
        · obtain ⟨w', hw', rfl⟩ := ih _ (hlen ▸ hlt) hmore rfl
          exact ⟨w ++ w', append_mem_kstar hw hw', (List.append_assoc ..).symm⟩
        · exact ⟨w, le_kstar (a := L) hw, rfl⟩
  fails {ts g} hg := by
    induction hlen : ts.length using Nat.strongRecOn generalizing ts with
    | ind n ih =>
      -- a failure in the first turn needs only that turn; in a later one the turns before are
      -- read
      rcases mem_failures_many hg with hfirst | ⟨b, mid, hb, hlt, hmore⟩
      · exact (h.fails hfirst).mono le_kstar
      · have hturns := ih _ (hlen ▸ hlt) hmore rfl
        obtain ⟨w, hw, rfl⟩ := h.reads hb
        exact (hturns.mul_right hw).mono mul_kstar_le_kstar

/-! ## Recursion -/

/-- Both what is read and where it fails concern one list, so agreement below any length is enough.
-/
theorem of_agreeBelow (h : ∀ n, ∃ q, Viable L q ∧ Grammar.AgreeBelow n p q) : Viable L p where
  start := by
    obtain ⟨q, hq, -⟩ := h 0
    exact hq.start
  reads {ts _ _} hy := by
    obtain ⟨q, hq, hagree⟩ := h (ts.length + 1)
    unfold Yields at hy
    rw [hagree ts (Nat.lt_succ_self _)] at hy
    exact hq.reads hy
  fails {ts _} hf := by
    obtain ⟨q, hq, hagree⟩ := h (ts.length + 1)
    rw [hagree ts (Nat.lt_succ_self _)] at hf
    exact hq.fails hf

end Viable

end Parser

end Fluxion

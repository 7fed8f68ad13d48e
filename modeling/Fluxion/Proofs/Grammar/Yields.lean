import Fluxion.Grammar.Parser

/-!
# What a parser yields

A parser on a list of tokens ends in one of three ways: it yields a value and leaves a rest, it
refuses the tokens, so that another alternative is tried, or it stops all reading. The first two are
`Yields` and `Refuses`. Each way of putting parsers together is described by what its parts yield
and refuse, so that later proofs never look at an outcome: from left to right these laws run a
parser on given tokens, and from right to left they take apart a run that ended well.
-/

namespace Fluxion.Parser

variable {β γ : Type}

/-- On `ts` the parser reads `b` and leaves `rest`. -/
def Yields (p : Parser β) (ts : List Token) (b : β) (rest : List Token) : Prop :=
  ∃ failures, p ts = ⟨.ok b, rest, failures⟩

/-- On `ts` the parser fails, and another alternative may be tried. -/
def Refuses (p : Parser β) (ts : List Token) : Prop :=
  ∃ failure rest failures, p ts = ⟨.error (.unexpected failure), rest, failures⟩

variable {p q : Parser β} {f : β → Parser γ} {ts rest : List Token} {b b' : β} {c : γ}

/-! ## One after another -/

@[simp] theorem yields_pure : Yields (pure b) ts b' rest ↔ b' = b ∧ rest = ts := by
  constructor
  · rintro ⟨fs, h⟩
    cases h
    exact ⟨rfl, rfl⟩
  · rintro ⟨rfl, rfl⟩
    exact ⟨[], rfl⟩

/-- If the first parser went well, the outcome is that of the second with all failures. -/
theorem bind_of_ok {failures : List Failure} (h : p ts = ⟨.ok b, rest, failures⟩) :
    (p >>= f) ts = (f b rest).after failures := by
  show Parser.andThen p f ts = _
  simp only [andThen, h]

theorem bind_of_error {e : SyntaxError} {failures : List Failure}
    (h : p ts = ⟨.error e, rest, failures⟩) : (p >>= f) ts = ⟨.error e, rest, failures⟩ := by
  show Parser.andThen p f ts = _
  simp only [andThen, h]

/-- Two parsers one after another go well if both do, the second where the first has stopped. -/
theorem yields_bind :
    Yields (p >>= f) ts c rest ↔ ∃ b mid, Yields p ts b mid ∧ Yields (f b) mid c rest := by
  constructor
  · rintro ⟨fs, h⟩
    -- the first parser must have succeeded, or the whole would have failed
    cases hp : p ts with
    | mk result mid fs' =>
      cases result with
      | error e =>
        rw [bind_of_error hp] at h
        cases h
      | ok b =>
        rw [bind_of_ok hp] at h
        refine ⟨b, mid, ⟨fs', hp⟩, (f b mid).failures, ?_⟩
        cases hf : f b mid with
        | mk result' rest' fs'' =>
          rw [hf] at h
          cases h
          rfl
  · rintro ⟨b, mid, ⟨fs, hp⟩, fs', hf⟩
    refine ⟨fs' ++ fs, ?_⟩
    rw [bind_of_ok hp, hf]
    rfl

theorem refuses_bind_left (h : Refuses p ts) : Refuses (p >>= f) ts := by
  obtain ⟨e, r, fs, h⟩ := h
  exact ⟨e, r, fs, bind_of_error h⟩

/-- What the first parser has read does not matter if the second refuses. -/
theorem refuses_bind_right (h : Yields p ts b rest) (h' : Refuses (f b) rest) :
    Refuses (p >>= f) ts := by
  obtain ⟨fs, h⟩ := h
  obtain ⟨e, r, fs', h'⟩ := h'
  refine ⟨e, r, fs' ++ fs, ?_⟩
  rw [bind_of_ok h, h']
  rfl

/-! ## Attempts and alternatives -/

@[simp] theorem yields_attempt : Yields (attempt p) ts b rest ↔ Yields p ts b rest := by
  cases h : p ts with
  | mk result r fs => cases result <;> simp [Yields, attempt, h]

theorem refuses_attempt (h : Refuses p ts) : Refuses (attempt p) ts := by
  obtain ⟨e, r, fs, h⟩ := h
  exact ⟨e, ts, fs, by simp only [attempt, h]⟩

@[simp] theorem yields_optional_some :
    Yields (optional p) ts (some b) rest ↔ Yields p ts b rest := by
  cases h : p ts with
  | mk result r fs =>
    cases result with
    | ok b => simp [Yields, optional, h]
    | error e => cases e <;> simp [Yields, optional, h, SyntaxError.isFatal]

/-- A value is left out only where it is refused, and then nothing is read. -/
@[simp] theorem yields_optional_none :
    Yields (optional p) ts none rest ↔ Refuses p ts ∧ rest = ts := by
  cases h : p ts with
  | mk result r fs =>
    cases result with
    | ok b => simp [Yields, Refuses, optional, h]
    | error e => cases e <;> simp [Yields, Refuses, optional, h, SyntaxError.isFatal, eq_comm]

/-- The second alternative is taken only where the first refuses. -/
theorem yields_orElse :
    Yields (orElse p q) ts b rest ↔
      Yields p ts b rest ∨ Refuses p ts ∧ Yields q ts b rest := by
  cases h : p ts with
  | mk result r fs =>
    cases result with
    | ok b => simp [Yields, Refuses, orElse, h]
    | error e =>
      cases hq : q ts with
      | mk result' r' fs' =>
        cases e <;> simp [Yields, Refuses, orElse, h, hq, SyntaxError.isFatal, Outcome.after]

theorem refuses_orElse (h : Refuses p ts) (h' : Refuses q ts) : Refuses (orElse p q) ts := by
  obtain ⟨e, r, fs, h⟩ := h
  obtain ⟨e', r', fs', h'⟩ := h'
  refine ⟨e', r', fs' ++ fs, ?_⟩
  simp [orElse, h, h', SyntaxError.isFatal, Outcome.after]

/-! ## Single tokens -/

variable {expected : Expectation} {accept : Token → Option β} {o : Token}

theorem yields_satisfy :
    Yields (satisfy expected accept) ts b rest ↔ ∃ o, ts = o :: rest ∧ accept o = some b := by
  cases ts with
  | nil => simp [Yields, satisfy, failing]
  | cons o ts =>
    cases h : accept o with
    | none =>
      constructor
      · rintro ⟨fs, h'⟩
        simp only [satisfy, h, failing] at h'
        cases h'
      · rintro ⟨o', h', h''⟩
        cases h'
        rw [h] at h''
        cases h''
    | some b' =>
      simp only [Yields, satisfy, h]
      constructor
      · rintro ⟨fs, h'⟩
        cases h'
        exact ⟨o, rfl, h⟩
      · rintro ⟨o, h', h''⟩
        cases h'
        rw [h] at h''
        cases h''
        exact ⟨[], rfl⟩

theorem refuses_satisfy (h : ∀ o ∈ ts.head?, accept o = none) :
    Refuses (satisfy expected accept) ts := by
  cases ts with
  | nil => exact ⟨_, _, _, rfl⟩
  | cons o ts =>
    have ho : accept o = none := h o rfl
    exact ⟨⟨expected, some o⟩, ts, [⟨expected, some o⟩], by simp only [satisfy, ho, failing]⟩

theorem refuses_refuse : Refuses (refuse expected : Parser β) ts := ⟨_, _, _, rfl⟩

theorem not_yields_refuse : ¬ Yields (refuse expected) ts b rest := by
  rintro ⟨fs, h⟩
  cases h

/-- No value comes of an error that ends all reading. -/
theorem not_yields_abort {e : SyntaxError} : ¬ Yields (abort e) ts b rest := by
  rintro ⟨fs, h⟩
  cases h

/-! ## Repetition -/

variable {bs : List β}

/-- A repetition ends at once where its parser refuses. -/
theorem yields_many_of_refuses (h : Refuses p ts) : Yields (many p) ts [] ts := by
  obtain ⟨fs, h⟩ := yields_optional_none.2 ⟨h, rfl⟩
  exact ⟨fs, by rw [many, h]⟩

/-- A repetition goes on behind a value that took a token. -/
theorem yields_many_of_yields {mid : List Token} (h : Yields p ts b mid)
    (hlt : mid.length < ts.length) (h' : Yields (many p) mid bs rest) :
    Yields (many p) ts (b :: bs) rest := by
  obtain ⟨fs, h⟩ := yields_optional_some.2 h
  obtain ⟨fs', h'⟩ := h'
  refine ⟨fs' ++ fs, ?_⟩
  rw [many, h]
  simp only [if_pos hlt, h']
  rfl

/-- A repetition that went well either read nothing, or one value and then more. -/
theorem Yields.many_cases (h : Yields (many p) ts bs rest) :
    bs = [] ∧ rest = ts ∨ ∃ b mid more, bs = b :: more ∧ Yields p ts b mid ∧
      (mid.length < ts.length ∧ Yields (many p) mid more rest ∨ more = [] ∧ rest = mid) := by
  obtain ⟨fs, h⟩ := h
  rw [many] at h
  cases ho : optional p ts with
  | mk result mid fs' =>
    rw [ho] at h
    cases result with
    | error e => cases h
    | ok found =>
      cases found with
      | none =>
        cases h
        exact Or.inl ⟨rfl, (yields_optional_none.1 ⟨fs, ho⟩).2⟩
      | some b =>
        have hb : Yields p ts b mid := yields_optional_some.1 ⟨fs', ho⟩
        refine Or.inr ?_
        -- the repetition ends after a value that was read from no token
        by_cases hlt : mid.length < ts.length
        · simp only [if_pos hlt] at h
          cases hm : many p mid with
          | mk result' rest' fs'' =>
            rw [hm] at h
            cases result' with
            | error e => cases h
            | ok more =>
              cases h
              exact ⟨b, mid, more, rfl, hb, Or.inl ⟨hlt, fs'', hm⟩⟩
        · simp only [if_neg hlt] at h
          cases h
          exact ⟨b, rest, [], rfl, hb, Or.inr ⟨rfl, rfl⟩⟩

/-! ## Recursion -/

/-- The parser on lists of fewer than `n` tokens, and a failure on all others. -/
def within (n : Nat) (p : Parser β) : Parser β := fun fewer =>
  if fewer.length < n then p fewer else failing .expression fewer.head? fewer

theorem within_of_lt {n : Nat} (h : ts.length < n) : within n p ts = p ts := if_pos h

@[simp] theorem yields_within {n : Nat} :
    Yields (within n p) ts b rest ↔ ts.length < n ∧ Yields p ts b rest := by
  by_cases h : ts.length < n
  · simp only [Yields, within_of_lt h, h, true_and]
  · refine ⟨?_, fun h' => (h h'.1).elim⟩
    rintro ⟨fs, h'⟩
    rw [within, if_neg h] at h'
    exact nomatch h'

/-- A parser tied to itself is its body, which is given that parser on fewer tokens. -/
theorem fix_apply (body : Parser β → Parser β) (ts : List Token) :
    fix body ts = body (within ts.length (fix body)) ts := by
  rw [fix]
  rfl

end Fluxion.Parser

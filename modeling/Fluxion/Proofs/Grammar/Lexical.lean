import Fluxion.Proofs.Grammar.Yields
import Fluxion.Proofs.Grammar.Phrase

/-!
# What is read of single tokens

The productions that read one token, or a number: what they yield is exactly a token of their class,
or a phrase of the grammar, and they refuse whatever starts otherwise.
-/

namespace Fluxion.Grammar

open Fluxion.Parser

variable {expected : Expectation} {kind : Kind} {mark : Punct} {word : Keyword} {o o' : Token}
variable {ts rest : List Token}

theorem yields_ofKind :
    Yields (ofKind expected kind) ts o rest ↔ ts = o :: rest ∧ o.kind = kind := by
  rw [ofKind, yields_satisfy]
  constructor
  · rintro ⟨o', rfl, h⟩
    split at h
    · next hk =>
      cases h
      exact ⟨rfl, hk⟩
    · exact nomatch h
  · rintro ⟨rfl, hk⟩
    exact ⟨o, rfl, if_pos hk⟩

theorem refuses_ofKind (h : ∀ o ∈ ts.head?, o.kind ≠ kind) : Refuses (ofKind expected kind) ts :=
  refuses_satisfy fun o ho => if_neg (h o ho)

@[simp] theorem yields_punct :
    Yields (punct mark) ts o rest ↔ ts = o :: rest ∧ o.kind = .punct mark :=
  yields_ofKind

@[simp] theorem yields_keyword :
    Yields (keyword word) ts o rest ↔ ts = o :: rest ∧ o.kind = .keyword word :=
  yields_ofKind

theorem refuses_punct (h : ∀ o ∈ ts.head?, o.kind ≠ .punct mark) : Refuses (punct mark) ts :=
  refuses_ofKind h

theorem refuses_keyword (h : ∀ o ∈ ts.head?, o.kind ≠ .keyword word) : Refuses (keyword word) ts :=
  refuses_ofKind h

/-! ## Names -/

/-- An identifier is read, that is a name which is not too long. -/
@[simp] theorem yields_identifier :
    Yields identifier ts o rest ↔ ts = o :: rest ∧ o.IsIdentifier := by
  simp only [identifier, yields_bind, yields_attempt, Grammar.word, yields_ofKind]
  constructor
  · rintro ⟨o', mid, ⟨rfl, hk⟩, h⟩
    split at h
    · exact (not_yields_abort h).elim
    · next hlen =>
      obtain ⟨rfl, rfl⟩ := yields_pure.1 h
      exact ⟨rfl, hk, Nat.le_of_not_lt hlen⟩
  · rintro ⟨rfl, hk, hlen⟩
    refine ⟨o, rest, ⟨rfl, hk⟩, ?_⟩
    rw [if_neg (Nat.not_lt_of_le hlen)]
    exact yields_pure.2 ⟨rfl, rfl⟩

/-- Only names are taken, and a name that is too long is not refused but ends all reading. -/
theorem refuses_identifier (h : ∀ o ∈ ts.head?, o.kind ≠ .name) : Refuses identifier ts :=
  refuses_bind_left (refuses_attempt (refuses_ofKind h))

/-! ## Numbers -/

variable {α : Type} [Literal α]

theorem Token.not_isNumber_of_kind {k : Kind} (h : o.kind = k) (hi : k ≠ .integer)
    (hd : k ≠ .decimal) : o.isNumber = false := by
  simp [Token.isNumber, h, hi, hd]

/-- What is read as a number is a number of the grammar. -/
theorem yields_constant {t : Tree α} :
    Yields constant ts t rest ↔
      ∃ w a, ts = w ++ rest ∧ Phrase.Number w a ∧ t = .num a := by
  simp only [constant, number, yields_bind, yields_pure, yields_satisfy]
  -- a minus sign is read whenever there is one, so the cases are those of the sign
  constructor
  · rintro ⟨n, mid, ⟨minus, mid', hminus, o, rfl, ho⟩, rfl, rfl⟩
    split at ho
    · next hn =>
      cases ho
      rw [Bool.and_eq_true] at hn
      cases minus with
      | none =>
        obtain ⟨-, rfl⟩ := yields_optional_none.1 hminus
        exact ⟨[o], _, rfl, .unsigned hn.1, rfl⟩
      | some sign =>
        obtain ⟨rfl, hsign⟩ := yields_punct.1 (yields_optional_some.1 hminus)
        exact ⟨[sign, o], _, rfl, .negative hsign hn.1 (by simpa using hn.2), rfl⟩
    · cases ho
  · rintro ⟨w, a, rfl, hw, rfl⟩
    cases hw with
    | @unsigned o ho =>
      refine ⟨_, rest, ⟨none, o :: rest, ?_, o, rfl, if_pos (by simp [ho])⟩, rfl, rfl⟩
      refine yields_optional_none.2 ⟨refuses_punct ?_, rfl⟩
      rintro o' ho' hk
      cases ho'
      rw [Token.not_isNumber_of_kind hk (by simp) (by simp)] at ho
      cases ho
    | @negative sign o hsign ho hstop =>
      refine ⟨_, rest, ⟨some sign, o :: rest, ?_, o, rfl, if_pos (by simp [ho, hstop])⟩, rfl, rfl⟩
      exact yields_optional_some.2 (yields_punct.2 ⟨rfl, hsign⟩)

/-- What starts with neither a minus sign nor digits is no number. -/
theorem refuses_constant (hm : ∀ o ∈ ts.head?, o.kind ≠ .punct .minus)
    (hn : ∀ o ∈ ts.head?, o.isNumber = false) : Refuses (constant : Parser (Tree α)) ts := by
  refine refuses_bind_left (refuses_bind_right (yields_optional_none.2 ⟨refuses_punct hm, rfl⟩) ?_)
  exact refuses_satisfy fun o ho => if_neg (by simp [hn o ho])

end Fluxion.Grammar

import Fluxion.Proofs.Token.Prefixes

/-!
# Texts put together

Where two texts are put together, the tokens of each are those that it has alone, if the first ends
in a mark or the second starts with a blank (`Token.splits_of`). So a text that is put together from
pieces of which none runs into the next (`Apart`) has the tokens of the pieces. A text between
blanks may stand anywhere (`Padded`).
-/

namespace Fluxion

open String (utf8Len)

/-- What follows the piece does not change its tokens, and has tokens of its own. -/
def Splits (p : String) (ys : List Char) : Prop :=
  ∀ start, Token.significantFrom start (p.toList ++ ys) =
    Token.significantFrom start p.toList ++ Token.significantFrom (start + p.utf8ByteSize) ys

/-- No piece runs into those that follow it. -/
def Apart : List String → Prop
  | [] => True
  | p :: ps => Splits p (ps.flatMap String.toList) ∧ Apart ps

/-- Some white space. -/
def IsBlank (b : String) : Prop := b ≠ "" ∧ ∀ c ∈ b.toList, isBlankChar c = true

/-- The text with white space put around it. -/
def Padded (s p : String) : Prop := ∃ b b', IsBlank b ∧ IsBlank b' ∧ p = b ++ s ++ b'

variable {p s b : String} {ps : List String} {cs ys : List Char} {start : Nat}

/-- The tokens of pieces that do not run into one another are those of the pieces. -/
theorem Apart.spelled (h : Apart ps) (start : Nat) :
    Spelled ps (Token.significantFrom start (ps.flatMap String.toList)) := by
  induction ps generalizing start with
  | nil => exact Token.significantFrom_nil start
  | cons p ps ih =>
    rw [List.flatMap_cons, h.1 start]
    exact ⟨start, _, rfl, ih h.2 _⟩

namespace Token

/-- Only blanks have no token. -/
theorem isBlankChar_of_significantFrom_eq_nil (h : significantFrom start cs = []) :
    ∀ c ∈ cs, isBlankChar c = true := by
  induction cs generalizing start with
  | nil => exact fun _ hc => nomatch hc
  | cons c cs ih =>
    cases hc : isBlankChar c with
    | true =>
      rw [significantFrom_of_blank start hc] at h
      exact List.forall_mem_cons.2 ⟨hc, ih h⟩
    | false =>
      rw [significantFrom_of_not_blank start hc] at h
      cases h

/-- Blanks in front only move the places. -/
theorem significantFrom_of_blanks (start : Nat) (hcs : ∀ c ∈ cs, isBlankChar c = true)
    (ys : List Char) :
    significantFrom start (cs ++ ys) = significantFrom (start + utf8Len cs) ys := by
  induction cs generalizing start with
  | nil => rfl
  | cons c cs ih =>
    obtain ⟨hc, hcs⟩ := List.forall_mem_cons.1 hcs
    rw [List.cons_append, significantFrom_of_blank start hc, ih _ hcs, String.utf8Len_cons,
      Nat.add_comm (utf8Len cs), Nat.add_assoc]

/-- The last of the tokens, if there is one, is a mark. -/
def EndsInMark (w : List Token) : Prop := ∀ o ∈ w.getLast?, ∃ mark, o.kind = .punct mark

/-- Nothing runs into what starts with a blank, and a mark into nothing. -/
theorem splits_of (h : (∀ c ∈ ys.head?, isBlankChar c = true) ∨
    ∀ start, EndsInMark (significantFrom start p.toList)) : Splits p ys := by
  intro start
  obtain ⟨kept, later, hp, hsize, hlater, hagain⟩ :=
    significantFrom_cut (List.append_nil (significantFrom start p.toList)).symm
  have hblank := isBlankChar_of_significantFrom_eq_nil hlater
  have hstop : start + p.utf8ByteSize =
      endOf start (significantFrom start p.toList) + utf8Len later := by
    rw [utf8ByteSize_eq_utf8Len, hp, String.utf8Len_append, ← hp, ← hsize, Nat.add_assoc]
  rw [hstop]
  have hfollow : MayFollow (significantFrom start p.toList) later (later ++ ys) ∨ p = "" := by
    cases later with
    | cons c later =>
      refine Or.inl (Or.inl (.of_blank fun d hd => ?_))
      cases hd
      exact hblank c List.mem_cons_self
    | nil =>
      rcases h with hys | hmark
      · exact Or.inl (Or.inl (.of_blank hys))
      · cases hlast : (significantFrom start p.toList).getLast? with
        | some o => exact Or.inl (Or.inr ⟨o, hlast, hmark start o hlast⟩)
        | none =>
          -- without a token nothing was kept
          rw [endOf, hlast] at hsize
          have hkept : kept = [] := String.utf8Len_eq_zero.1 (Nat.add_left_cancel hsize)
          refine Or.inr (String.toList_inj.1 ?_)
          rw [hp, hkept]
          rfl
  rcases hfollow with hfollow | rfl
  · rw [← significantFrom_of_blanks _ hblank, ← hagain _ hfollow, ← List.append_assoc, ← hp]
  · obtain ⟨-, rfl⟩ := List.append_eq_nil_iff.1 hp.symm
    have hnil : ("" : String).toList = [] := rfl
    rw [hnil, significantFrom_nil]
    rfl

end Token

theorem splits_mark (h : IsMark p) (ys : List Char) : Splits p ys :=
  fun start => Token.significantFrom_mark start h ys

theorem splits_word (h : IsWord p.toList) (hys : Detached ys) : Splits p ys :=
  fun start => Token.significantFrom_word start h hys

theorem IsBlank.head? (h : IsBlank b) (ys : List Char) :
    ∀ c ∈ (b.toList ++ ys).head?, isBlankChar c = true := by
  intro c hc
  obtain ⟨d, ds, hb⟩ := List.exists_cons_of_ne_nil (mt String.toList_eq_nil_iff.1 h.1)
  rw [hb, List.cons_append] at hc
  cases hc
  exact h.2 _ (by rw [hb]; exact List.mem_cons_self)

/-- White space leaves only the tokens of the text, and those of what follows. -/
theorem Padded.exists_significantFrom (h : Padded s p) (start : Nat) :
    ∃ start', Token.significantFrom start p.toList = Token.significantFrom start' s.toList ∧
      ∀ ys, Token.significantFrom start (p.toList ++ ys) =
        Token.significantFrom start' s.toList ++
          Token.significantFrom (start + p.utf8ByteSize) ys := by
  obtain ⟨b, b', hb, hb', rfl⟩ := h
  have hfollowed : ∀ ys, Token.significantFrom start ((b ++ s ++ b').toList ++ ys) =
      Token.significantFrom (start + b.utf8ByteSize) s.toList ++
        Token.significantFrom (start + (b ++ s ++ b').utf8ByteSize) ys := by
    intro ys
    have hs : Splits s (b'.toList ++ ys) := Token.splits_of (Or.inl (hb'.head? ys))
    rw [String.toList_append, String.toList_append, List.append_assoc, List.append_assoc,
      Token.significantFrom_of_blanks start hb.2, ← utf8ByteSize_eq_utf8Len, hs,
      Token.significantFrom_of_blanks _ hb'.2, ← utf8ByteSize_eq_utf8Len]
    simp only [String.utf8ByteSize_append, Nat.add_assoc]
  have halone := hfollowed []
  rw [List.append_nil, Token.significantFrom_nil, List.append_nil] at halone
  exact ⟨_, halone, hfollowed⟩

/-- White space at its end keeps a text from what follows. -/
theorem Padded.splits (h : Padded s p) (ys : List Char) : Splits p ys := by
  intro start
  obtain ⟨start', halone, hfollowed⟩ := h.exists_significantFrom start
  rw [hfollowed, halone]

/-- Among the tokens of pieces those of a padded text are those of the text, moved. -/
theorem Spelled.padded {w : List Token} (h : Spelled (p :: ps) w) (hp : Padded s p) :
    ∃ start w', w = Token.significantFrom start s.toList ++ w' ∧ Spelled ps w' := by
  obtain ⟨start, w', rfl, h⟩ := h
  obtain ⟨start', halone, -⟩ := hp.exists_significantFrom start
  exact ⟨start', w', by rw [halone], h⟩

end Fluxion

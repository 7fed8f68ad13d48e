import Fluxion.Proofs.Grammar.Barriers

/-!
# The furthest failure

Of the failures that reading meets one is reported: none is further, and of those that are as far it
is the last (`Failure.furthest?_eq_some_iff`). It says what stands at its place, a token by its text
or the end (`Failure.Describes`).
-/

namespace Fluxion

open Fluxion.Parser Fluxion.Grammar

namespace Failure

variable {stop : Nat} {f : Failure} {fs : List Failure} {text : String}

/-- Of the failures, the last first, none is further than `f`, and `f` is the last that is as far.
-/
def LastFurthest (stop : Nat) (fs : List Failure) (f : Failure) : Prop :=
  ∃ later earlier, fs = later ++ f :: earlier ∧
    (∀ g ∈ later, g.position stop < f.position stop) ∧
    ∀ g ∈ earlier, g.position stop ≤ f.position stop

theorem lastFurthest_of_furthest? (h : furthest? stop fs = some f) : LastFurthest stop fs f := by
  induction fs with
  | nil => cases h
  | cons g fs ih =>
    rw [furthest?] at h
    -- the failures are listed with the latest in front, so the first wins a tie
    cases hfs : furthest? stop fs with
    | none =>
      have hnil : fs = [] := by simpa [hfs] using furthest?_spec stop fs
      rw [hfs] at h
      cases h
      exact ⟨[], fs, rfl, by simp, by simp [hnil]⟩
    | some g' =>
      rw [hfs] at h
      dsimp only at h
      have hmax := (furthest?_eq_some hfs).2
      split at h
      · next hle =>
        cases h
        exact ⟨[], fs, rfl, by simp, fun f' hf' => (hmax f' hf').trans hle⟩
      · next hlt =>
        obtain ⟨later, earlier, rfl, hlater, hearlier⟩ := ih (hfs.trans h)
        cases h
        exact ⟨g :: later, earlier, rfl, List.forall_mem_cons.2 ⟨Nat.lt_of_not_le hlt, hlater⟩,
          hearlier⟩

/-- The search finds such a failure if there is one, as it goes on to another only if that is
further. -/
theorem furthest?_of_lastFurthest (h : LastFurthest stop fs f) : furthest? stop fs = some f := by
  obtain ⟨later, earlier, rfl, hlater, hearlier⟩ := h
  induction later with
  | nil =>
    rw [List.nil_append, furthest?]
    cases hfs : furthest? stop earlier with
    | none => rfl
    | some g => exact if_pos (hearlier g (furthest?_eq_some hfs).1)
  | cons g later ih =>
    obtain ⟨hg, hlater⟩ := List.forall_mem_cons.1 hlater
    rw [List.cons_append, furthest?, ih hlater]
    exact if_neg (Nat.not_le_of_lt hg)

/-- The furthest failure is the last of those that are furthest. -/
theorem furthest?_eq_some_iff : furthest? stop fs = some f ↔ LastFurthest stop fs f :=
  ⟨lastFurthest_of_furthest?, furthest?_of_lastFurthest⟩

/-- If anything has failed something is furthest. -/
theorem furthest?_eq_none_iff : furthest? stop fs = none ↔ fs = [] := by
  refine ⟨fun h => ?_, fun h => by rw [h]; rfl⟩
  simpa [h] using furthest?_spec stop fs

end Failure

/-! ## What stands at the place of a failure -/

/-- The part of a text from the one byte to the other. -/
def Span.Covers (span : Span) (text part : String) : Prop :=
  ∃ before after, text = before ++ part ++ after ∧
    span = ⟨before.utf8ByteSize, (before ++ part).utf8ByteSize⟩

namespace Token

variable {text : String} {o o' : Token}

theorem covers_span (h : o ∈ significant text) : o.span.Covers text o.text := by
  obtain ⟨w, ts, hsplit⟩ := List.append_of_mem h
  rw [significant_eq] at hsplit
  obtain ⟨kept, later, htext, hsize, hlater, -⟩ := significantFrom_cut hsplit
  obtain ⟨gap, rest, rfl, hstart, -⟩ := significantFrom_first hlater
  have hbefore : o.start = (String.ofList (kept ++ gap)).utf8ByteSize := by
    rw [String.utf8ByteSize_ofList, String.utf8Len_append]
    omega
  refine ⟨String.ofList (kept ++ gap), String.ofList rest, ?_, ?_⟩
  · simp [← String.toList_inj, String.toList_append, htext]
  · rw [span, stop, hbefore, String.utf8ByteSize_append]

/-- No two tokens start at the same byte. -/
theorem eq_of_start_eq (ho : o ∈ significant text) (ho' : o' ∈ significant text)
    (h : o.start = o'.start) : o = o' := by
  obtain ⟨w, ts, hsplit⟩ := List.append_of_mem ho
  rw [hsplit] at ho'
  rcases List.mem_append.1 ho' with hmem | hmem
  · obtain ⟨w₁, w₂, rfl⟩ := List.append_of_mem hmem
    rw [List.append_assoc, List.cons_append] at hsplit
    have hlt := (start_lt_of_significant hsplit).1 o (by simp)
    omega
  · rcases List.mem_cons.1 hmem with rfl | hmem
    · rfl
    · have hlt := (start_lt_of_significant hsplit).1 o' hmem
      omega

theorem mem_significant_iff : o ∈ significant text ↔ o ∈ lex text ∧ o.isBlank = false := by
  rw [significant, List.mem_filter, Bool.not_eq_true']

end Token

namespace Failure

variable {text : String} {f : Failure}

/-- The failure says what is at its place: the text of a token there that is neither blank nor an
end mark, or that there is none, at an end mark or at the end of the text. -/
structure Describes (text : String) (f : Failure) : Prop where
  found_iff : f.foundText?.isSome = true ↔ ∃ o ∈ Token.lex text, o.isBlank = false ∧
    o.kind ≠ .punct .dollar ∧ o.span = f.span text.utf8ByteSize
  covers : ∀ part ∈ f.foundText?, (f.span text.utf8ByteSize).Covers text part
  ended : f.foundText? = none →
    f.span text.utf8ByteSize = ⟨text.utf8ByteSize, text.utf8ByteSize⟩ ∨
      ∃ o ∈ Token.lex text, o.kind = .punct .dollar ∧ o.span = f.span text.utf8ByteSize

/-- A text was found if a token other than the end mark was. -/
theorem foundText?_eq_some {part : String} (h : f.foundText? = some part) :
    ∃ o, f.found = some o ∧ o.kind ≠ .punct .dollar ∧ o.text = part := by
  rw [foundText?] at h
  cases hfound : f.found with
  | none =>
    rw [hfound] at h
    cases h
  | some o =>
    rw [hfound] at h
    dsimp only at h
    split at h
    · cases h
    · next hkind => exact ⟨o, rfl, hkind, Option.some.inj h⟩

/-- Nothing was found where the text ends, or where the end mark stands. -/
theorem foundText?_eq_none (h : f.foundText? = none) :
    f.found = none ∨ ∃ o, f.found = some o ∧ o.kind = .punct .dollar := by
  rw [foundText?] at h
  cases hfound : f.found with
  | none => exact .inl rfl
  | some o =>
    rw [hfound] at h
    dsimp only at h
    split at h
    · next hkind => exact .inr ⟨o, rfl, hkind⟩
    · cases h

theorem span_of_found {o : Token} (stop : Nat) (h : f.found = some o) : f.span stop = o.span := by
  rw [span, h]

theorem span_of_none (stop : Nat) (h : f.found = none) : f.span stop = ⟨stop, stop⟩ := by
  rw [span, h]

/-- So does every failure that was met at a place in the text. -/
theorem In.describes (h : f.In (Token.significant text)) : f.Describes text := by
  obtain ⟨s, hs, hfound⟩ := h
  have hmem : ∀ o, f.found = some o → o ∈ Token.significant text := by
    intro o ho
    obtain ⟨ts, rfl⟩ := List.head?_eq_some_iff.1 (hfound.symm.trans ho)
    exact hs.subset List.mem_cons_self
  refine ⟨⟨fun hsome => ?_, ?_⟩, fun part hpart => ?_, fun hnone => ?_⟩
  · obtain ⟨part, hpart⟩ := Option.isSome_iff_exists.1 hsome
    obtain ⟨o, ho, hkind, -⟩ := foundText?_eq_some hpart
    obtain ⟨hlex, hblank⟩ := Token.mem_significant_iff.1 (hmem o ho)
    exact ⟨o, hlex, hblank, hkind, (span_of_found _ ho).symm⟩
  · rintro ⟨o, hlex, hblank, hkind, hspan⟩
    have ho : o ∈ Token.significant text := Token.mem_significant_iff.2 ⟨hlex, hblank⟩
    cases hf : f.found with
    | none =>
      -- a token has bytes, and there are none at the end of the text
      rw [span_of_none _ hf, Token.span, Span.mk.injEq] at hspan
      have hlt := Token.start_lt_stop ho
      omega
    | some o' =>
      rw [span_of_found _ hf, Token.span, Token.span, Span.mk.injEq] at hspan
      obtain rfl := Token.eq_of_start_eq ho (hmem o' hf) hspan.1
      rw [foundText?, hf]
      simp [hkind]
  · obtain ⟨o, ho, -, rfl⟩ := foundText?_eq_some hpart
    rw [span_of_found _ ho]
    exact Token.covers_span (hmem o ho)
  · rcases foundText?_eq_none hnone with hf | ⟨o, ho, hkind⟩
    · exact .inl (span_of_none _ hf)
    · have hlex := (Token.mem_significant_iff.1 (hmem o ho)).1
      exact .inr ⟨o, hlex, hkind, (span_of_found _ ho).symm⟩

end Failure

/-! ## The error of an entry -/

namespace Token

/-- Where a text ends for who reads it: at the first end mark, or behind its last byte. -/
def endSpan (text : String) : Span :=
  match (significant text).find? fun o => o.kind == .punct .dollar with
  | some o => o.span
  | none => ⟨text.utf8ByteSize, text.utf8ByteSize⟩

/-- Behind the tokens before the end mark comes the end mark, or nothing. -/
theorem exists_beforeEnd_append (text : String) : ∃ tail,
    significant text = beforeEnd text ++ tail ∧ NoDollar (beforeEnd text) ∧
      ∀ o ∈ tail.head?, o.kind = .punct .dollar := by
  refine ⟨_, List.takeWhile_append_dropWhile.symm, fun o ho => ?_, fun o ho => ?_⟩
  · simpa using List.all_eq_true.1 List.all_takeWhile o ho
  · have hhead := List.head?_dropWhile_not (fun o => o.kind != .punct .dollar) (significant text)
    rw [ho] at hhead
    simpa using hhead

end Token

namespace Entry

variable {α : Type} [Literal α] {entry : Entry} {text : String}

/-- An entry that comes to an end mark or to the end of the text comes to the first such place. -/
theorem span_eq_endSpan {f : Failure} (hnone : f.foundText? = none)
    (h : entry.parse (α := α) text = .error ⟨.unexpected f, f.span text.utf8ByteSize⟩) :
    f.span text.utf8ByteSize = Token.endSpan text := by
  obtain ⟨tail, hsplit, hbefore, hmark⟩ := Token.exists_beforeEnd_append text
  have hnot : (Token.beforeEnd text).find? (fun o => o.kind == .punct .dollar) = none :=
    List.find?_eq_none.2 fun o ho => by simpa using hbefore o ho
  rw [Token.endSpan, hsplit, List.find?_append, hnot, Option.none_or]
  rcases error_before_barrier (fun o ho => .inl (hmark o ho)) hsplit h with
    ⟨name, he, -⟩ | ⟨f', he, hmem, hnil⟩
  · cases he
  cases he
  rcases Failure.foundText?_eq_none hnone with hf | ⟨o, ho, hkind⟩
  · rw [hnil hf, Failure.span_of_none _ hf]
    rfl
  · have hhead : o ∈ tail.head? := (hmem o ho).resolve_left fun hmem => hbefore o hmem hkind
    obtain ⟨ts, rfl⟩ := List.head?_eq_some_iff.1 hhead
    have hfirst : (o :: ts).find? (fun o => o.kind == .punct .dollar) = some o :=
      List.find?_cons_of_pos (by simp [hkind])
    rw [Failure.span_of_found _ ho, hfirst]

end Entry

end Fluxion

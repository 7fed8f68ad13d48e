import Fluxion.Proofs.Token.Pieces
import Mathlib.Data.List.Induction
import Mathlib.Data.String.Basic

/-!
# The tokens of the beginning of a text

Lexing looks at no more than two characters behind a token, so a text may be cut off after any of
its tokens, and gone on with otherwise, without the tokens before the cut being others
(`Token.significantFrom_cut`). What goes on must not prolong the last token: a blank never does, and
after a mark nothing does. So pieces of text can be added to given tokens with blanks between them,
the first right after a minus sign if the tokens end in one (`Token.exists_continuation`).
-/

namespace Fluxion

open String (utf8Len)

theorem utf8ByteSize_eq_utf8Len (s : String) : s.utf8ByteSize = utf8Len s.toList := by
  rw [← String.utf8ByteSize_ofList, String.ofList_toList]

/-- A token of the class ends before these characters, if it is as long as can be. -/
def Kind.EndsBefore : Kind → List Char → Prop
  | blank, cs => ∀ c ∈ cs.head?, isBlankChar c = false
  | keyword _, cs | name, cs => ∀ c ∈ cs.head?, c.isAlphanum = false
  | integer, cs => (∀ c ∈ cs.head?, c.isDigit = false) ∧
      ∀ d more, cs = '.' :: d :: more → d.isDigit = false
  | decimal, cs => ∀ c ∈ cs.head?, c.isDigit = false
  | punct _, _ | symbol, _ => True

/-- A punctuation mark prolongs no token. -/
theorem Kind.EndsBefore.append_mark {kind : Kind} {cs : List Char} (h : kind.EndsBefore cs)
    (mark : Punct) (ys : List Char) : kind.EndsBefore (cs ++ mark.char :: ys) := by
  obtain ⟨hblank, halnum, hpoint⟩ := mark.char_spec
  have hhead : ∀ {p : Char → Bool}, p mark.char = false → (∀ d ∈ cs.head?, p d = false) →
      ∀ d ∈ (cs ++ mark.char :: ys).head?, p d = false := by
    intro p hp hcs d hd
    cases cs with
    | nil =>
      cases hd
      exact hp
    | cons e es => exact hcs d hd
  have hdigit : mark.char.isDigit = false := isDigit_eq_false_of_not_alphanum halnum
  cases kind with
  | blank => exact hhead hblank h
  | punct mark => trivial
  | keyword word => exact hhead halnum h
  | name => exact hhead halnum h
  | integer =>
    refine ⟨hhead hdigit h.1, fun d more heq => ?_⟩
    -- a point with a digit behind it lies within `cs`, as a mark is neither of the two
    rcases cs with - | ⟨e, - | ⟨e', es⟩⟩
    · exact absurd (List.cons.inj heq).1 hpoint
    · obtain ⟨-, htail⟩ := List.cons.inj heq
      rw [← (List.cons.inj htail).1]
      exact hdigit
    · obtain ⟨rfl, htail⟩ := List.cons.inj heq
      rw [← (List.cons.inj htail).1]
      exact h.2 e' es rfl
  | decimal => exact hhead hdigit h
  | symbol => trivial

namespace Cut

variable {p : Char → Bool} {c : Char} {cs : List Char}

/-- What is left of a run does not go on with it. -/
theorem head?_dropWhile {d : Char} (h : d ∈ (cs.dropWhile p).head?) : p d = false := by
  have := List.head?_dropWhile_not p cs
  rw [h] at this
  simpa using this

/-- A run is cut off again where other characters follow that do not prolong it. -/
theorem run_takeWhile (kind : List Char → Kind) (p : Char → Bool) (c : Char) (cs : List Char)
    {ys : List Char} (hys : ∀ d ∈ ys.head?, p d = false) :
    run kind p c (cs.takeWhile p ++ ys) =
      ⟨kind (c :: cs.takeWhile p), c :: cs.takeWhile p, ys⟩ :=
  run_of_append kind c (fun _ hd => mem_takeWhile hd) hys

/-- Words end before what is neither a letter nor a digit, keywords as well as names. -/
theorem endsBefore_wordKind (word : List Char) :
    (wordKind word).EndsBefore cs ↔ ∀ d ∈ cs.head?, d.isAlphanum = false := by
  unfold wordKind
  split <;> rfl

/-- Digits are an integer unless a point and a digit follow. -/
theorem number_integer (c : Char)
    (h : ∀ d more, cs.dropWhile Char.isDigit = '.' :: d :: more → d.isDigit = false) :
    number c cs = run (fun _ => .integer) Char.isDigit c cs := by
  simp only [number, run]
  split
  · next d more hrest => rw [if_neg (by rw [h d more hrest]; exact Bool.false_ne_true)]
  · rfl

/-- A point belongs to a number if there is a digit behind it. -/
theorem number_decimal (c : Char) {d : Char} {more : List Char} (hd : d.isDigit = true)
    (h : cs.dropWhile Char.isDigit = '.' :: d :: more) :
    number c cs = ⟨.decimal,
      c :: (cs.takeWhile Char.isDigit ++ '.' :: d :: more.takeWhile Char.isDigit),
      more.dropWhile Char.isDigit⟩ := by
  simp only [number, run, h, hd, if_true, List.cons_append]

/-- The cut leaves what does not prolong it, and may as well leave anything else that does not. -/
structure Exact (c : Char) (again : List Char → Cut) (cut : Cut) : Prop where
  ends : cut.kind.EndsBefore cut.rest
  again : ∃ more, cut.lexeme = c :: more ∧
    ∀ ys, cut.kind.EndsBefore ys → again (more ++ ys) = ⟨cut.kind, cut.lexeme, ys⟩

/-- A number is cut as far as it goes, and only what is cut and one or two characters behind it
matter. -/
theorem number_exact (c : Char) (cs : List Char) : Exact c (number c) (number c cs) := by
  -- a point with a digit behind it is taken in, any other is left
  by_cases h : ∃ d more, cs.dropWhile Char.isDigit = '.' :: d :: more ∧ d.isDigit = true
  · obtain ⟨d, more, hrest, hd⟩ := h
    rw [number_decimal c hd hrest]
    refine ⟨fun _ he => head?_dropWhile he, _, rfl, fun ys hys => ?_⟩
    have hpoint : ∀ e ∈ ('.' :: d :: (more.takeWhile Char.isDigit ++ ys)).head?,
        e.isDigit = false := by
      rintro e he
      cases he
      decide
    have hwhole := run_takeWhile (fun _ => .integer) Char.isDigit c cs hpoint
    have hfraction := run_takeWhile (fun _ => .decimal) Char.isDigit d more hys
    rw [List.append_assoc, List.cons_append, List.cons_append, number]
    simp only [hwhole, hd, if_true, hfraction, List.cons_append]
  · have hnone : ∀ d more, cs.dropWhile Char.isDigit = '.' :: d :: more → d.isDigit = false :=
      fun d more hrest => Bool.eq_false_iff.2 fun hd => h ⟨d, more, hrest, hd⟩
    rw [number_integer c hnone]
    refine ⟨⟨fun _ he => head?_dropWhile he, hnone⟩, _, rfl, fun ys hys => ?_⟩
    have hrun := run_takeWhile (fun _ => .integer) Char.isDigit c cs hys.1
    rw [number_integer c, hrun]
    · rfl
    · intro d more hrest
      refine hys.2 d more ?_
      rw [← hrest]
      exact (congrArg Cut.rest hrun).symm

/-- Every token that is not blank is cut off as it is, whatever follows that does not prolong it. -/
theorem ofChars_exact (hc : isBlankChar c = false) (cs : List Char) :
    Exact c (ofChars c) (ofChars c cs) := by
  by_cases halpha : c.isAlpha = true
  · have hword : ofChars c = run wordKind Char.isAlphanum c := by
      funext cs
      rw [ofChars, hc, halpha]
      rfl
    rw [hword]
    refine ⟨(endsBefore_wordKind _).2 fun _ hd => head?_dropWhile hd, _, rfl, fun ys hys => ?_⟩
    exact run_takeWhile wordKind Char.isAlphanum c cs ((endsBefore_wordKind _).1 hys)
  · by_cases hdigit : c.isDigit = true
    · have hnumber : ofChars c = number c := funext (ofChars_digit hdigit)
      rw [hnumber]
      exact number_exact c cs
    · have hsingle : ∀ cs, ofChars c cs = ⟨singleKind c, [c], cs⟩ := by
        intro cs
        rw [ofChars, hc, Bool.eq_false_iff.2 halpha, Bool.eq_false_iff.2 hdigit]
        rfl
      -- a token of a single character ends before anything
      have hends : ∀ ys, (singleKind c).EndsBefore ys := by
        intro ys
        unfold singleKind
        split <;> trivial
      rw [hsingle]
      exact ⟨hends cs, [], rfl, fun ys _ => hsingle ys⟩

end Cut

theorem not_isAlphanum_of_blank {c : Char} (h : isBlankChar c = true) : c.isAlphanum = false :=
  Bool.eq_false_iff.2 fun halnum => by simp [isBlankChar_of_isAlphanum halnum] at h

/-- Where a token ends before `zs`, it ends before `ys` as well: either `ys` starts with a blank, or
the two start alike, and with the same fraction if with one. -/
structure Fits (zs ys : List Char) : Prop where
  head : ∀ c ∈ ys.head?, isBlankChar c = true ∨ c ∈ zs.head?
  fraction : ∀ d more, ys = '.' :: d :: more → d.isDigit = true → ∃ more', zs = '.' :: d :: more'

namespace Fits

variable {zs ys : List Char}

theorem of_blank (hys : ∀ c ∈ ys.head?, isBlankChar c = true) : Fits zs ys where
  head c hc := Or.inl (hys c hc)
  fraction d more h _ := absurd (hys '.' (by rw [h]; rfl)) (by decide)

/-- A mark prolongs nothing that it did not prolong before. -/
theorem of_mark (mark : Punct) : Fits (mark.char :: zs) (mark.char :: ys) where
  head _ hc := Or.inr hc
  fraction _ _ h _ := absurd (List.cons.inj h).1 mark.char_spec.2.2

theorem append_left (h : Fits zs ys) (us : List Char) : Fits (us ++ zs) (us ++ ys) := by
  cases us with
  | nil => exact h
  | cons c us =>
    refine ⟨fun _ hc => Or.inr hc, fun d more heq hd => ?_⟩
    rw [List.cons_append, List.cons.injEq] at heq
    obtain ⟨rfl, heq⟩ := heq
    cases us with
    | nil =>
      -- the digit after the point is the first of `ys`, and no blank
      rw [List.nil_append] at heq
      have hblank := isBlankChar_of_isAlphanum (isAlphanum_of_isDigit hd)
      rcases h.head d (by rw [heq]; rfl) with hd' | hd'
      · rw [hblank] at hd'
        cases hd'
      · obtain ⟨more', rfl⟩ := List.head?_eq_some_iff.1 hd'
        exact ⟨more', rfl⟩
    | cons d' us =>
      cases heq
      exact ⟨us ++ zs, rfl⟩

/-- Where a token ends before the one it ends before the other. -/
theorem endsBefore {kind : Kind} (h : Fits zs ys) (hkind : kind ≠ .blank)
    (hzs : kind.EndsBefore zs) : kind.EndsBefore ys := by
  have hdigit : (∀ c ∈ zs.head?, c.isDigit = false) → ∀ c ∈ ys.head?, c.isDigit = false := by
    intro hzs c hc
    rcases h.head c hc with hblank | hmem
    · exact isDigit_eq_false_of_not_alphanum (not_isAlphanum_of_blank hblank)
    · exact hzs c hmem
  have hword : (∀ c ∈ zs.head?, c.isAlphanum = false) → ∀ c ∈ ys.head?, c.isAlphanum = false := by
    intro hzs c hc
    rcases h.head c hc with hblank | hmem
    · exact not_isAlphanum_of_blank hblank
    · exact hzs c hmem
  cases kind with
  | blank => exact (hkind rfl).elim
  | punct mark => trivial
  | keyword word => exact hword hzs
  | name => exact hword hzs
  | integer =>
    -- a whole number must not go on with a point and a digit either
    refine ⟨hdigit hzs.1, fun d more hys => Bool.eq_false_iff.2 fun hd => ?_⟩
    obtain ⟨more', hmore⟩ := h.fraction d more hys hd
    rw [hzs.2 d more' hmore] at hd
    cases hd
  | decimal => exact hdigit hzs
  | symbol => trivial

end Fits

namespace Token

variable {start : Nat} {c : Char} {cs : List Char} {o : Token} {w ts : List Token}

theorem stop_eq (o : Token) : o.stop = o.start + utf8Len o.text.toList := by
  rw [stop, utf8ByteSize_eq_utf8Len]

/-- A blank at the front leaves no token, only its place. -/
theorem significantFrom_of_blank (start : Nat) (hc : isBlankChar c = true) (cs : List Char) :
    significantFrom start (c :: cs) = significantFrom (start + c.utf8Size) cs := by
  rw [significantFrom_blanks start hc, String.utf8ByteSize_ofList]
  cases cs with
  | nil => simp
  | cons d cs =>
    by_cases hd : isBlankChar d = true
    · rw [significantFrom_blanks _ hd, String.utf8ByteSize_ofList, List.takeWhile_cons_of_pos hd,
        List.dropWhile_cons_of_pos hd, String.utf8Len_cons, Nat.add_comm _ c.utf8Size,
        Nat.add_assoc]
    · rw [List.takeWhile_cons_of_neg hd, List.dropWhile_cons_of_neg hd]
      simp

theorem spells_of_mem_significantFrom (h : o ∈ significantFrom start cs) :
    o.kind.Spells o.text.toList :=
  spells_of_mem_lexFrom (List.mem_filter.1 h).1

theorem ofChars_kind_ne_blank (hc : isBlankChar c = false) (cs : List Char) :
    (Cut.ofChars c cs).kind ≠ .blank := by
  intro hkind
  obtain ⟨hspells, -⟩ := Cut.ofChars_spec c cs
  obtain ⟨more, hlexeme, -⟩ := (Cut.ofChars_exact hc cs).again
  rw [hkind, hlexeme] at hspells
  have := hspells.2 c List.mem_cons_self
  rw [hc] at this
  cases this

/-- The first token is what is cut off, and the others those of the rest. -/
theorem significantFrom_of_not_blank (start : Nat) (hc : isBlankChar c = false) (cs : List Char) :
    significantFrom start (c :: cs) =
      ⟨(Cut.ofChars c cs).kind, String.ofList (Cut.ofChars c cs).lexeme, start⟩ ::
        significantFrom (start + utf8Len (Cut.ofChars c cs).lexeme) (Cut.ofChars c cs).rest := by
  rw [significantFrom, lexFrom, ← String.utf8ByteSize_ofList]
  refine List.filter_cons_of_pos ?_
  simpa [isBlank] using ofChars_kind_ne_blank hc cs

/-- A text with a punctuation mark in it has the tokens of what stands before the mark, the mark,
and the tokens of what stands behind. -/
theorem significantFrom_append_mark (start : Nat) (cs : List Char) (mark : Punct) (ys : List Char) :
    significantFrom start (cs ++ mark.char :: ys) =
      significantFrom start cs ++ ⟨.punct mark, String.ofList [mark.char], start + utf8Len cs⟩ ::
        significantFrom (start + utf8Len cs + mark.char.utf8Size) ys := by
  induction hlen : cs.length using Nat.strongRecOn generalizing start cs with
  | ind n ih =>
    subst hlen
    cases cs with
    | nil =>
      rw [List.nil_append, significantFrom_nil, List.nil_append,
        significantFrom_of_not_blank start mark.char_spec.1, Cut.ofChars_mark, String.utf8Len_cons,
        String.utf8Len_nil, Nat.zero_add, Nat.add_zero]
    | cons c cs =>
      by_cases hc : isBlankChar c = true
      · rw [List.cons_append, significantFrom_of_blank start hc, significantFrom_of_blank start hc,
          ih cs.length (Nat.lt_succ_self _) _ cs rfl, String.utf8Len_cons,
          Nat.add_comm (utf8Len cs), Nat.add_assoc start]
      · rw [Bool.not_eq_true] at hc
        -- the first token is cut as before, as it ends before the mark as well
        have hexact := Cut.ofChars_exact hc cs
        have hends := Kind.EndsBefore.append_mark hexact.ends mark ys
        have hrest := Cut.ofChars_rest_length_le c cs
        obtain ⟨more, hlexeme, hagain⟩ := hexact.again
        have hsplit := (Cut.ofChars_spec c cs).2
        have hcut := hagain _ hends
        rw [hlexeme, List.cons_append, List.cons.injEq] at hsplit
        rw [← List.append_assoc, hsplit.2] at hcut
        have hsize : utf8Len (c :: cs) =
            utf8Len (Cut.ofChars c cs).lexeme + utf8Len (Cut.ofChars c cs).rest := by
          rw [← String.utf8Len_append, (Cut.ofChars_spec c cs).2]
        rw [List.cons_append, significantFrom_of_not_blank start hc,
          significantFrom_of_not_blank start hc, hcut,
          ih _ (Nat.lt_succ_of_le hrest) _ _ rfl, hsize, List.cons_append, Nat.add_assoc start]

/-- The first token stands after blanks, and stays as it is whatever follows that does not prolong
it. -/
theorem significantFrom_first (h : significantFrom start cs = o :: ts) :
    ∃ gap rest, cs = gap ++ (o.text.toList ++ rest) ∧ o.start = start + utf8Len gap ∧
      significantFrom o.stop rest = ts ∧ o.kind ≠ .blank ∧ o.kind.EndsBefore rest ∧
      ∀ ys, o.kind.EndsBefore ys →
        significantFrom start (gap ++ (o.text.toList ++ ys)) = o :: significantFrom o.stop ys := by
  induction cs generalizing start with
  | nil =>
    rw [significantFrom_nil] at h
    cases h
  | cons c cs ih =>
    by_cases hc : isBlankChar c = true
    · rw [significantFrom_of_blank start hc] at h
      obtain ⟨gap, rest, rfl, hstart, hts, hkind, hrest, hagain⟩ := ih h
      refine ⟨c :: gap, rest, rfl, ?_, hts, hkind, hrest, fun ys hys => ?_⟩
      · rw [hstart, String.utf8Len_cons]
        omega
      · rw [List.cons_append, significantFrom_of_blank start hc]
        exact hagain ys hys
    · rw [Bool.not_eq_true] at hc
      rw [significantFrom_of_not_blank start hc, List.cons.injEq] at h
      obtain ⟨rfl, rfl⟩ := h
      have hexact := Cut.ofChars_exact hc cs
      obtain ⟨more, hlexeme, hagain⟩ := hexact.again
      refine ⟨[], (Cut.ofChars c cs).rest, ?_, rfl, ?_, ofChars_kind_ne_blank hc cs, hexact.ends,
        ?_⟩
      · rw [List.nil_append, String.toList_ofList]
        exact (Cut.ofChars_spec c cs).2.symm
      · rw [stop_eq, String.toList_ofList]
      · intro ys hys
        rw [stop_eq, String.toList_ofList, List.nil_append]
        -- the same cut is made in front of anything else that the token ends before
        have hcut := hagain ys hys
        rw [hlexeme, List.cons_append, significantFrom_of_not_blank start hc, hcut, hlexeme]

/-- The byte at which the last token ends, or `start` where there is none. -/
def endOf (start : Nat) (w : List Token) : Nat := (w.getLast?.map stop).getD start

/-- The end of some tokens is that of the last. -/
@[simp] theorem endOf_concat (start : Nat) (w : List Token) (o : Token) :
    endOf start (w ++ [o]) = o.stop := by
  simp [endOf]

/-- The characters may stand after the tokens `w` in place of others: they prolong none of them. -/
def MayFollow (w : List Token) (later ys : List Char) : Prop :=
  Fits later ys ∨ ∃ o ∈ w.getLast?, ∃ mark, o.kind = .punct mark

/-- The characters are cut behind any of their tokens, and may go on otherwise from there. -/
theorem significantFrom_cut (h : significantFrom start cs = w ++ ts) :
    ∃ kept later, cs = kept ++ later ∧ start + utf8Len kept = endOf start w ∧
      significantFrom (endOf start w) later = ts ∧
      ∀ ys, MayFollow w later ys →
        significantFrom start (kept ++ ys) = w ++ significantFrom (endOf start w) ys := by
  -- by induction on the tokens from their end: the last is cut off the characters left by the
  -- others
  induction w using List.reverseRecOn generalizing ts with
  | nil => exact ⟨[], cs, rfl, rfl, h, fun _ _ => rfl⟩
  | append_singleton w o ih =>
    rw [List.append_assoc] at h
    obtain ⟨kept, later, rfl, hsize, hlater, hagain⟩ := ih h
    obtain ⟨gap, rest, rfl, hstart, hts, hkind, hrest, hfirst⟩ := significantFrom_first hlater
    have hmem : o ∈ significantFrom (endOf start w) (gap ++ (o.text.toList ++ rest)) := by
      rw [hlater]
      exact List.mem_cons_self
    have hspells : o.kind.Spells o.text.toList := spells_of_mem_significantFrom hmem
    refine ⟨kept ++ (gap ++ o.text.toList), rest, by simp, ?_, ?_, fun ys hys => ?_⟩
    · rw [endOf_concat, stop_eq, hstart, ← hsize, String.utf8Len_append, String.utf8Len_append]
      omega
    · rwa [endOf_concat]
    · have hfits : Fits (o.text.toList ++ rest) (o.text.toList ++ ys) ∧ o.kind.EndsBefore ys := by
        rcases hys with hys | ⟨o', ho', mark, hmark⟩
        · exact ⟨hys.append_left _, hys.endsBefore hkind hrest⟩
        · rw [List.getLast?_concat, Option.mem_some] at ho'
          subst ho'
          rw [hmark] at hspells ⊢
          have htext : o.text.toList = [mark.char] := hspells
          rw [htext]
          exact ⟨.of_mark mark, trivial⟩
      have htokens := hagain (gap ++ (o.text.toList ++ ys)) (Or.inl (hfits.1.append_left gap))
      rw [hfirst ys hfits.2] at htokens
      rw [endOf_concat]
      simpa using htokens

/-- The tokens stand behind where the characters start, each behind the others before it. -/
theorem start_le_of_mem (h : o ∈ significantFrom start cs) : start ≤ o.start := by
  obtain ⟨w, ts, hsplit⟩ := List.append_of_mem h
  obtain ⟨kept, later, -, hsize, hlater, -⟩ := significantFrom_cut hsplit
  obtain ⟨gap, rest, -, hstart, -⟩ := significantFrom_first hlater
  omega

/-- Every token takes up some bytes. -/
theorem start_lt_stop (h : o ∈ significantFrom start cs) : o.start < o.stop := by
  have hne := (spells_of_mem_significantFrom h).ne_nil
  have hsize : utf8Len o.text.toList ≠ 0 := fun h => hne (String.utf8Len_eq_zero.1 h)
  rw [stop_eq]
  omega

/-- All tokens behind another start behind it, and so does the end of the text. -/
theorem start_lt_of_significant {text : String} (h : significant text = w ++ o :: ts) :
    (∀ o' ∈ ts, o.start < o'.start) ∧ o.start < text.utf8ByteSize := by
  have hsplit : significantFrom 0 text.toList = (w ++ [o]) ++ ts := by
    rw [← significant_eq, h, List.append_assoc, List.cons_append, List.nil_append]
  have hmem : o ∈ significantFrom 0 text.toList := by
    rw [hsplit]
    simp
  have hlt : o.start < o.stop := start_lt_stop hmem
  obtain ⟨kept, later, htext, hsize, hlater, -⟩ := significantFrom_cut hsplit
  rw [endOf_concat] at hsize hlater
  refine ⟨fun o' ho' => ?_, ?_⟩
  · have := start_le_of_mem (hlater ▸ ho')
    omega
  · rw [utf8ByteSize_eq_utf8Len, htext, String.utf8Len_append]
    omega

end Token

/-! ## Going on with given tokens -/

/-- A word, a number without a sign, or a mark. -/
def IsPiece (p : String) : Prop := ∃ kind : Kind, kind.IsSolid ∧ kind.Spells p.toList

/-- What follows a minus sign at the end of `w` starts where the sign ends. -/
def Joined (w v : List Token) : Prop :=
  ∀ sign ∈ w.getLast?, sign.kind = .punct .minus → ∀ o ∈ v.head?, sign.stop = o.start

namespace Token

/-- Pieces with blanks after them have the tokens that they spell, the first right at the start. -/
theorem significantFrom_pieces {ps : List String} (hps : ∀ p ∈ ps, IsPiece p) (start : Nat) :
    Spelled ps (significantFrom start (ps.flatMap fun p => p.toList ++ [' '])) ∧
      ∀ o ∈ (significantFrom start (ps.flatMap fun p => p.toList ++ [' '])).head?,
        o.start = start := by
  induction ps generalizing start with
  | nil =>
    rw [List.flatMap_nil, significantFrom_nil]
    exact ⟨rfl, fun _ h => (nomatch h)⟩
  | cons p ps ih =>
    obtain ⟨kind, hsolid, hspells⟩ := hps p List.mem_cons_self
    -- the blank behind each piece ends its token
    have hends : ∀ cs, kind.Ends (' ' :: cs) := by
      intro cs
      have hblank : Detached (' ' :: cs) := by
        rintro c hc
        cases hc
        decide
      cases kind <;> first | exact trivial | exact hblank
    rw [List.flatMap_cons, List.append_assoc, List.cons_append, List.nil_append,
      significantFrom_append start hspells hsolid (hends _), significantFrom_blank]
    obtain ⟨hrest, -⟩ :=
      ih (fun q hq => hps q (List.mem_cons_of_mem _ hq)) (start + p.utf8ByteSize + 1)
    refine ⟨⟨start, _, ?_, hrest⟩, ?_⟩
    · rw [significantFrom_token start hspells hsolid]
      rfl
    · rintro o ho
      cases ho
      rfl

/-- A text can be gone on with after some of its tokens, by pieces of which only the first matters
to where they stand: after a minus sign it comes at once. -/
theorem exists_continuation {text : String} {w ts : List Token} {ps : List String}
    (h : significant text = w ++ ts) (hps : ∀ p ∈ ps, IsPiece p) :
    ∃ kept rest more v, text = kept ++ rest ∧ significant kept = w ∧
      kept.utf8ByteSize = endOf 0 w ∧ significant (kept ++ more) = w ++ v ∧ Spelled ps v ∧
      Joined w v := by
  obtain ⟨kept, later, htext, hsize, -, hagain⟩ := significantFrom_cut h
  have hmore : ∀ ys, MayFollow w later ys →
      significant (String.ofList kept ++ String.ofList ys) =
        w ++ significantFrom (endOf 0 w) ys := by
    intro ys hys
    rw [significant_eq, String.toList_append, String.toList_ofList, String.toList_ofList]
    exact hagain ys hys
  have hkept : significant (String.ofList kept) = w := by
    have hnone := hmore [] (Or.inl (.of_blank fun _ hc => (nomatch hc)))
    simpa using hnone
  have hsplit : text = String.ofList kept ++ String.ofList later := by
    rw [← String.toList_inj, htext]
    simp
  have hstop : (String.ofList kept).utf8ByteSize = endOf 0 w := by
    rw [String.utf8ByteSize_ofList, ← hsize, Nat.zero_add]
  -- a minus sign takes the number that touches it, so a blank is put in only where there is none
  by_cases hminus : ∃ sign ∈ w.getLast?, sign.kind = .punct .minus
  · obtain ⟨sign, hsign, hkind⟩ := hminus
    obtain ⟨hspelled, hstart⟩ := significantFrom_pieces hps (endOf 0 w)
    refine ⟨_, _, _, _, hsplit, hkept, hstop, hmore _ (Or.inr ⟨sign, hsign, _, hkind⟩), hspelled,
      ?_⟩
    intro sign' hsign' _ o ho
    rw [hstart o ho, endOf, Option.mem_def.1 hsign']
    rfl
  · obtain ⟨hspelled, -⟩ := significantFrom_pieces hps (endOf 0 w + 1)
    rw [← significantFrom_blank] at hspelled
    refine ⟨_, _, _, _, hsplit, hkept, hstop, hmore _ (Or.inl (.of_blank ?_)), hspelled, ?_⟩
    · intro c hc
      cases hc
      rfl
    · exact fun sign hsign hkind => absurd ⟨sign, hsign, hkind⟩ hminus

end Token

end Fluxion

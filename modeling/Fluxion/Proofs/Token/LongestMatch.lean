import Fluxion.Proofs.Token.Prefixes

/-!
# Every token is the longest match

The classes of tokens by what each may match, apart from the order in which lexing tries them: a
word may be a name as well as a keyword, and any character but a line feed may be a symbol
(`Kind.Matches`). What is cut off a text is the longest match of all classes, and of two classes
that match it the one that goes before the other (`Kind.IsLongest`). The tokens of a text are
nothing but such cuts, one where the other ends (`Token.lex_longest`).
-/

namespace Fluxion

open String (utf8Len)

namespace Kind

/-- What may be a token of the class. -/
def Matches : Kind → List Char → Prop
  | blank, cs => cs ≠ [] ∧ ∀ c ∈ cs, c ∈ [' ', '\t', '\n', '\r']
  | punct mark, cs => cs = [mark.char]
  | keyword word, cs => cs = word.text.toList
  | name, cs => IsWord cs
  | integer, cs => IsDigits cs
  | decimal, cs => ∃ whole fraction, cs = whole ++ '.' :: fraction ∧ IsDigits whole ∧
      IsDigits fraction
  | symbol, cs => ∃ c, cs = [c] ∧ c ≠ '\n'

/-- Of classes that match the same text the one with the greatest number is taken. -/
def priority : Kind → Nat
  | symbol => 0
  | name => 1
  | _ => 2

theorem priority_le_two (k : Kind) : k.priority ≤ 2 := by
  cases k <;> simp [priority]

/-- No class matches more of the front of `cs`, and of all that match as much this one is taken. -/
structure IsLongest (kind : Kind) (lexeme cs : List Char) : Prop where
  isMatch : kind.Matches lexeme
  front : lexeme <+: cs
  longest : ∀ k v, Matches k v → v <+: cs → v.length ≤ lexeme.length
  preferred : ∀ k, Matches k lexeme → k ≠ kind → k.priority < kind.priority

variable {k : Kind} {c : Char} {v : List Char}

/-- The characters that separate tokens. -/
theorem isBlankChar_iff : isBlankChar c = true ↔ c ∈ [' ', '\t', '\n', '\r'] := by
  simp [isBlankChar, or_assoc]

theorem Matches.ne_nil (h : k.Matches v) : v ≠ [] := by
  cases k with
  | blank | integer => exact h.1
  | name =>
    obtain ⟨c, more, rfl, -⟩ := h
    exact List.cons_ne_nil c more
  | symbol =>
    obtain ⟨c, rfl, -⟩ := h
    exact List.cons_ne_nil c []
  | punct mark => exact Spells.ne_nil (show (punct mark).Spells v from h)
  | keyword word => exact Spells.ne_nil (show (keyword word).Spells v from h)
  | decimal => exact Spells.ne_nil (show decimal.Spells v from h)

/-- What a class is spelled like is a match of it. -/
theorem Spells.isMatch (h : k.Spells v) (hfeed : k = symbol → v ≠ ['\n']) : k.Matches v := by
  cases k with
  | blank => exact ⟨h.1, fun c hc => isBlankChar_iff.1 (h.2 c hc)⟩
  | name => exact h.1
  | symbol =>
    obtain ⟨c, rfl, -⟩ := h
    exact ⟨c, rfl, by simpa using hfeed rfl⟩
  | punct mark | keyword word | integer | decimal => exact h

/-! ## What a match starts with -/

/-- Only digits, or digits with a point and digits after it, start with a digit. -/
inductive NumberTail : Kind → List Char → Prop
  | integer {v : List Char} : (∀ d ∈ v, d.isDigit = true) → NumberTail integer v
  | decimal {whole more : List Char} {d : Char} : (∀ e ∈ whole, e.isDigit = true) →
      d.isDigit = true → (∀ e ∈ more, e.isDigit = true) →
      NumberTail decimal (whole ++ '.' :: d :: more)

/-- The first character of a match tells its class, but for symbols and for names that are keywords.
-/
inductive Starts : Kind → Char → List Char → Prop
  | blank {c : Char} {v : List Char} : isBlankChar c = true → (∀ d ∈ v, isBlankChar d = true) →
      Starts blank c v
  | punct (mark : Punct) : Starts (punct mark) mark.char []
  | keyword {word : Keyword} {c : Char} {v : List Char} : c :: v = word.text.toList →
      c.isAlpha = true → (∀ d ∈ v, d.isAlphanum = true) → Starts (keyword word) c v
  | name {c : Char} {v : List Char} : c.isAlpha = true → (∀ d ∈ v, d.isAlphanum = true) →
      Starts name c v
  | number {k : Kind} {c : Char} {v : List Char} : c.isDigit = true → NumberTail k v → Starts k c v
  | symbol {c : Char} : Starts symbol c []

/-- How a match goes on is told by its class and its first character. -/
theorem Matches.starts (h : k.Matches (c :: v)) : Starts k c v := by
  cases k with
  | blank =>
    obtain ⟨hc, hv⟩ := List.forall_mem_cons.1 h.2
    exact .blank (isBlankChar_iff.2 hc) fun d hd => isBlankChar_iff.2 (hv d hd)
  | punct mark =>
    have hcs : c :: v = [mark.char] := h
    cases hcs
    exact .punct mark
  | keyword word =>
    obtain ⟨c', v', hcs, hc, hv⟩ := word.isWord
    have heq : c :: v = word.text.toList := h
    obtain ⟨rfl, rfl⟩ := List.cons.inj (heq.trans hcs)
    exact .keyword heq hc hv
  | name =>
    obtain ⟨c', v', hcs, hc, hv⟩ := h
    obtain ⟨rfl, rfl⟩ := List.cons.inj hcs
    exact .name hc hv
  | integer =>
    obtain ⟨hc, hv⟩ := List.forall_mem_cons.1 h.2
    exact .number hc (.integer hv)
  | decimal =>
    obtain ⟨whole, fraction, hcs, hwhole, hfraction⟩ := h
    obtain ⟨c', whole, rfl⟩ := List.exists_cons_of_ne_nil hwhole.1
    obtain ⟨d, more, rfl⟩ := List.exists_cons_of_ne_nil hfraction.1
    obtain ⟨rfl, rfl⟩ := List.cons.inj hcs
    obtain ⟨hc, hwhole⟩ := List.forall_mem_cons.1 hwhole.2
    obtain ⟨hd, hmore⟩ := List.forall_mem_cons.1 hfraction.2
    exact .number hc (.decimal hwhole hd hmore)
  | symbol =>
    obtain ⟨c', hcs, -⟩ := h
    cases hcs
    exact .symbol

end Kind

namespace Cut

open Kind

variable {p : Char → Bool} {c : Char} {cs v : List Char} {k : Kind}

/-- A run takes all characters that go on with it. -/
theorem length_le_takeWhile (hstart : v <+: cs) (hv : ∀ d ∈ v, p d = true) :
    v.length ≤ (cs.takeWhile p).length := by
  obtain ⟨tail, rfl⟩ := hstart
  rw [List.takeWhile_append_of_pos hv, List.length_append]
  exact Nat.le_add_right _ _

/-- Digits go on as long as they can, and then with a point only if digits follow. -/
theorem length_le_number (c : Char) (hv : NumberTail k v) (hstart : v <+: cs) :
    v.length < (number c cs).lexeme.length := by
  have hwhole : (c :: cs.takeWhile Char.isDigit).length ≤ (number c cs).lexeme.length := by
    simp only [number, run]
    split
    · split
      · simp only [List.length_append]
        exact Nat.le_add_right _ _
      · exact Nat.le_refl _
    · exact Nat.le_refl _
  cases hv with
  | integer hv => exact Nat.lt_of_le_of_lt (length_le_takeWhile hstart hv) hwhole
  | @decimal whole more d hw hd hmore =>
    obtain ⟨tail, rfl⟩ := hstart
    -- the digits before the point are cut off as a whole, so that the point comes next
    have hpoint : ∀ us : List Char, ('.' :: us).takeWhile Char.isDigit = [] := fun _ => rfl
    have hrest : (whole ++ '.' :: d :: more ++ tail).dropWhile Char.isDigit =
        '.' :: d :: (more ++ tail) := by
      rw [List.append_assoc, List.dropWhile_append_of_pos hw]
      rfl
    rw [number_decimal c hd hrest, List.append_assoc, List.cons_append, List.cons_append,
      List.takeWhile_append_of_pos hw, List.takeWhile_append_of_pos hmore, hpoint]
    simp only [List.length_cons, List.length_append, List.append_nil]
    omega

/-- What starts with a blank is cut as far as there are blanks. -/
theorem ofChars_blank (hc : isBlankChar c = true) (cs : List Char) :
    ofChars c cs = run (fun _ => .blank) isBlankChar c cs := by
  rw [ofChars, if_pos hc]

/-- What starts with a letter is cut as far as there are letters and digits. -/
theorem ofChars_alpha (hc : c.isAlpha = true) (cs : List Char) :
    ofChars c cs = run wordKind Char.isAlphanum c cs := by
  rw [ofChars, isBlankChar_of_isAlphanum (isAlphanum_of_isAlpha hc), hc]
  rfl

theorem number_kind (c : Char) (cs : List Char) :
    (number c cs).kind = .integer ∨ (number c cs).kind = .decimal := by
  simp only [number, run]
  split
  · split
    · exact Or.inr rfl
    · exact Or.inl rfl
  · exact Or.inl rfl

/-- Every cut takes a character. -/
theorem length_pos_ofChars (c : Char) (cs : List Char) : 0 < (ofChars c cs).lexeme.length :=
  List.length_pos_iff.2 (ofChars_spec c cs).1.ne_nil

/-- No match is longer than what is cut off. -/
theorem length_lt_of_starts (h : Starts k c v) (hstart : v <+: cs) :
    v.length < (ofChars c cs).lexeme.length := by
  cases h with
  | blank hc hv =>
    rw [ofChars_blank hc]
    exact Nat.lt_succ_of_le (length_le_takeWhile hstart hv)
  | keyword _ hc hv | name hc hv =>
    rw [ofChars_alpha hc]
    exact Nat.lt_succ_of_le (length_le_takeWhile hstart hv)
  | number hc hv =>
    rw [ofChars_digit hc]
    exact length_le_number c hv hstart
  | punct mark => exact length_pos_ofChars mark.char cs
  | symbol => exact length_pos_ofChars c cs

/-- A word that is a keyword is not taken for a name. -/
theorem priority_name_lt (hne : name ≠ wordKind v) : priority name < (wordKind v).priority := by
  unfold wordKind at hne ⊢
  split
  · exact Nat.lt_succ_self 1
  · next h => simp [h] at hne

/-- A symbol is what is nothing else. -/
theorem priority_symbol_lt (hne : symbol ≠ k) : priority symbol < k.priority := by
  cases k with
  | symbol => exact (hne rfl).elim
  | blank | punct mark | keyword word | name | integer | decimal => exact Nat.succ_pos _

/-- What is cut off with digits in front has a point only if it is a decimal. -/
theorem number_kind_of_tail (hc : c.isDigit = true) (hv : NumberTail k v)
    (hlexeme : (number c cs).lexeme = c :: v) : k = (number c cs).kind := by
  have hspells := (number_spec hc cs).1
  have hpoint : Char.isDigit '.' = false := rfl
  rw [hlexeme] at hspells
  -- a whole number has no point and a decimal has one, so the text tells which it is
  rcases number_kind c cs with hkind | hkind
  · rw [hkind] at hspells ⊢
    cases hv with
    | integer => rfl
    | @decimal whole more d =>
      have := hspells.2 '.' (by simp)
      rw [hpoint] at this
      cases this
  · rw [hkind] at hspells ⊢
    cases hv with
    | integer hv =>
      obtain ⟨whole, fraction, heq, -⟩ := hspells
      have hmem : '.' ∈ c :: v := by simp [heq]
      have hdigits : ∀ d ∈ c :: v, d.isDigit = true := List.forall_mem_cons.2 ⟨hc, hv⟩
      have := hdigits '.' hmem
      rw [hpoint] at this
      cases this
    | decimal => rfl

/-- Of all matches that are as long, what is cut off has the class that goes before the others. -/
theorem priority_lt_of_starts (h : Starts k c v) (hlexeme : (ofChars c cs).lexeme = c :: v)
    (hne : k ≠ (ofChars c cs).kind) : k.priority < (ofChars c cs).kind.priority := by
  cases h with
  | blank hc =>
    rw [ofChars_blank hc] at hne
    exact (hne rfl).elim
  | punct mark =>
    rw [ofChars_mark] at hne
    exact (hne rfl).elim
  | @keyword word _ _ hword hc =>
    rw [ofChars_alpha hc] at hlexeme hne
    have hkind : (run wordKind Char.isAlphanum c cs).kind = wordKind (c :: v) :=
      congrArg wordKind hlexeme
    rw [hkind, hword, wordKind, String.ofList_toList, Keyword.ofText?_text] at hne
    exact (hne rfl).elim
  | name hc =>
    rw [ofChars_alpha hc] at hne ⊢
    exact priority_name_lt hne
  | number hc hv =>
    rw [ofChars_digit hc] at hlexeme hne
    exact (hne (number_kind_of_tail hc hv hlexeme)).elim
  | symbol => exact priority_symbol_lt hne

/-- What is cut off is the longest match. -/
theorem ofChars_isLongest (c : Char) (cs : List Char) :
    (ofChars c cs).kind.IsLongest (ofChars c cs).lexeme (c :: cs) := by
  obtain ⟨hspells, hsplit⟩ := ofChars_spec c cs
  obtain ⟨d, v, hlexeme⟩ := List.exists_cons_of_ne_nil hspells.ne_nil
  have hc : d = c := by
    rw [hlexeme] at hsplit
    exact (List.cons.inj hsplit).1
  subst hc
  refine ⟨hspells.isMatch ?_, ⟨_, hsplit⟩, fun k u hu hstart => ?_, fun k hk hne => ?_⟩
  · -- a line feed is a blank
    intro hkind hfeed
    rw [hlexeme] at hfeed
    cases hfeed
    rw [ofChars_blank rfl] at hkind
    cases hkind
  · cases u with
    | nil => exact Nat.zero_le _
    | cons e u =>
      obtain ⟨rfl, htail⟩ := List.cons_prefix_cons.1 hstart
      exact length_lt_of_starts hu.starts htail
  · rw [hlexeme] at hk
    exact priority_lt_of_starts hk.starts hlexeme hne

end Cut

/-! ## The tokens of a text -/

namespace Token

/-- The texts of tokens put together. -/
def joined (ts : List Token) : String := String.join (ts.map Token.text)

/-- The first token starts at byte `start`, each other where the one before it stops, and the last
stops at byte `stop`. -/
def Consecutive : Nat → List Token → Nat → Prop
  | start, [], stop => start = stop
  | start, o :: ts, stop => o.start = start ∧ Consecutive o.stop ts stop

variable {start : Nat} {c : Char} {cs : List Char} {o : Token} {before after : List Token}

theorem toList_joined (ts : List Token) :
    (joined ts).toList = ts.flatMap fun o => o.text.toList := by
  rw [joined, String.toList_join, List.flatMap_map]

theorem joined_cons (o : Token) (ts : List Token) : joined (o :: ts) = o.text ++ joined ts := by
  rw [← String.toList_inj, String.toList_append, toList_joined, toList_joined, List.flatMap_cons]

/-- The texts of the tokens put together are the text. -/
theorem joined_lexFrom (start : Nat) (cs : List Char) :
    joined (lexFrom start cs) = String.ofList cs := by
  rw [← String.toList_inj, toList_joined, flatMap_lexFrom, String.toList_ofList]

/-- Each token stands behind all characters of those before it, and is cut off what they leave. -/
theorem lexFrom_split (h : lexFrom start cs = before ++ o :: after) :
    o.start = start + (joined before).utf8ByteSize ∧
      ∃ c rest, (joined (o :: after)).toList = c :: rest ∧ o.kind = (Cut.ofChars c rest).kind ∧
        o.text.toList = (Cut.ofChars c rest).lexeme := by
  induction before generalizing start cs with
  | nil =>
    cases cs with
    | nil =>
      rw [lexFrom] at h
      cases h
    | cons c cs =>
      have hall : (joined (o :: after)).toList = c :: cs := by
        rw [← List.nil_append (o :: after), ← h, joined_lexFrom, String.toList_ofList]
      rw [lexFrom] at h
      obtain ⟨rfl, -⟩ := List.cons.inj h
      exact ⟨rfl, c, cs, hall, rfl, String.toList_ofList⟩
  -- the token in front has taken its own characters, and the rest starts behind it
  | cons b before ih =>
    cases cs with
    | nil =>
      rw [lexFrom] at h
      cases h
    | cons c cs =>
      rw [lexFrom] at h
      obtain ⟨rfl, htail⟩ := List.cons.inj h
      obtain ⟨hstart, hcut⟩ := ih htail
      refine ⟨?_, hcut⟩
      rw [hstart, joined_cons, String.utf8ByteSize_append, stop, Nat.add_assoc]

/-- Each token starts where the one before it stops, from the first byte to the last. -/
theorem consecutive_lexFrom (start : Nat) (cs : List Char) :
    Consecutive start (lexFrom start cs) (start + utf8Len cs) := by
  induction hlen : cs.length using Nat.strongRecOn generalizing start cs with
  | ind n ih =>
    subst hlen
    cases cs with
    | nil =>
      rw [lexFrom]
      rfl
    | cons c cs =>
      -- the cut is part of the text, and what is left is shorter
      have hsize : utf8Len (c :: cs) =
          utf8Len (Cut.ofChars c cs).lexeme + utf8Len (Cut.ofChars c cs).rest := by
        rw [← String.utf8Len_append, (Cut.ofChars_spec c cs).2]
      have hmore := ih _ (Nat.lt_succ_of_le (Cut.ofChars_rest_length_le c cs))
        (Token.stop ⟨(Cut.ofChars c cs).kind, String.ofList (Cut.ofChars c cs).lexeme, start⟩) _ rfl
      rw [stop_eq, String.toList_ofList] at hmore
      rw [lexFrom, hsize, ← Nat.add_assoc]
      refine ⟨rfl, ?_⟩
      rw [stop_eq, String.toList_ofList]
      exact hmore

end Token

namespace Kind.IsLongest

variable {k : Kind} {text : String} {cs : List Char}

/-- Only names and symbols have texts that another class may match. -/
theorem eq_iff (h : k.IsLongest text.toList cs) {k' : Kind} (hname : k' ≠ name)
    (hsymbol : k' ≠ symbol) : k = k' ↔ k'.Matches text.toList := by
  refine ⟨fun heq => heq ▸ h.isMatch, fun hmatch => Decidable.byContradiction fun hne => ?_⟩
  have hlt := h.preferred k' hmatch (Ne.symm hne)
  have hle := k.priority_le_two
  have hmost : k'.priority = 2 := by
    cases k' with
    | name => exact (hname rfl).elim
    | symbol => exact (hsymbol rfl).elim
    | blank | punct mark | keyword word | integer | decimal => rfl
  omega

/-- A word is a name unless it is a keyword. -/
theorem eq_name_iff (h : k.IsLongest text.toList cs) :
    k = name ↔ IsWord text.toList ∧ ∀ word : Keyword, text ≠ word.text := by
  constructor
  · rintro rfl
    refine ⟨h.isMatch, ?_⟩
    rintro word rfl
    exact absurd (h.preferred (keyword word) rfl (by simp)) (by simp [priority])
  · rintro ⟨hword, hkeyword⟩
    refine Decidable.byContradiction fun hne => ?_
    have hlt := h.preferred name hword (Ne.symm hne)
    obtain ⟨c, more, hcs, hc, -⟩ := hword
    have hmatch := h.isMatch
    have halnum := isAlphanum_of_isAlpha hc
    rw [hcs] at hmatch
    -- no other class but that of keywords starts with a letter
    cases hmatch.starts with
    | blank hblank =>
      rw [isBlankChar_of_isAlphanum halnum] at hblank
      cases hblank
    | punct mark =>
      rw [mark.char_spec.2.1] at halnum
      cases halnum
    | @keyword word _ _ heq =>
      exact hkeyword word (String.toList_inj.1 (hcs.trans heq))
    | name => exact hne rfl
    | number hdigit =>
      rw [isAlpha_of_isDigit hdigit] at hc
      cases hc
    | symbol => cases hlt

/-- A symbol is what no other class matches any of. -/
theorem eq_symbol_iff (h : k.IsLongest text.toList cs) :
    k = symbol ↔ ∀ k' v, k' ≠ symbol → k'.Matches v → ¬ v <+: cs := by
  constructor
  · rintro rfl k' v hne hmatch hstart
    obtain ⟨c, htext, -⟩ := h.isMatch
    have hle := h.longest k' v hmatch hstart
    have hpos := List.length_pos_iff.2 hmatch.ne_nil
    -- the match is as long as the symbol, which has the least priority
    have hsame : v = text.toList := by
      rw [htext, List.length_singleton] at hle
      refine List.IsPrefix.eq_of_length (List.prefix_of_prefix_length_le hstart h.front ?_) ?_
      · rw [htext, List.length_singleton]
        exact hle
      · rw [htext, List.length_singleton]
        omega
    exact absurd (h.preferred k' (hsame ▸ hmatch) hne) (Nat.not_lt_zero _)
  · intro hnone
    exact Decidable.byContradiction fun hne => hnone k _ hne h.isMatch h.front

end Kind.IsLongest

namespace Token

/-- The tokens of a text, put together, are the text. Each starts where the one before it stops,
between characters, and is the longest match there is at this place. It is a symbol if no other
class matches there, a name if it is a word but no keyword, and of any other class if that class
matches it. -/
theorem lex_longest (text : String) :
    joined (lex text) = text ∧ Consecutive 0 (lex text) text.utf8ByteSize ∧
      ∀ before o after, lex text = before ++ o :: after →
        o.text ≠ "" ∧ o.start = (joined before).utf8ByteSize ∧
          (⟨o.start⟩ : String.Pos.Raw).IsValid text ∧ (⟨o.stop⟩ : String.Pos.Raw).IsValid text ∧
          o.kind.IsLongest o.text.toList (joined (o :: after)).toList ∧
          (∀ k ≠ .name, k ≠ .symbol → (o.kind = k ↔ k.Matches o.text.toList)) ∧
          (o.kind = .name ↔ IsWord o.text.toList ∧ ∀ word : Keyword, o.text ≠ word.text) ∧
          (o.kind = .symbol ↔
            ∀ (k : Kind) v, k ≠ .symbol → k.Matches v → ¬ v <+: (joined (o :: after)).toList) := by
  have hjoined : joined (lex text) = text := by
    rw [lex, joined_lexFrom, String.ofList_toList]
  refine ⟨hjoined, ?_, fun before o after hsplit => ?_⟩
  · have hconsecutive := consecutive_lexFrom 0 text.toList
    rwa [Nat.zero_add, ← utf8ByteSize_eq_utf8Len] at hconsecutive
  · obtain ⟨hstart, c, rest, hrest, hkind, hlexeme⟩ := lexFrom_split hsplit
    have hlongest : o.kind.IsLongest o.text.toList (joined (o :: after)).toList := by
      rw [hrest, hkind, hlexeme]
      exact Cut.ofChars_isLongest c rest
    -- the text is what stands before the token, its own text, and what stands behind
    have htext : text = joined before ++ (o.text ++ joined after) := by
      rw [← joined_cons, ← String.toList_inj, String.toList_append, toList_joined, toList_joined,
        ← List.flatMap_append, ← hsplit, ← toList_joined, hjoined]
    rw [Nat.zero_add] at hstart
    refine ⟨?_, hstart, ?_, ?_, hlongest, fun k => hlongest.eq_iff, hlongest.eq_name_iff,
      hlongest.eq_symbol_iff⟩
    · rintro hempty
      rw [hempty] at hlongest
      exact hlongest.isMatch.ne_nil rfl
    · rw [hstart, String.Pos.Raw.isValid_iff_exists_append]
      exact ⟨_, _, htext, rfl⟩
    · rw [stop, hstart, String.Pos.Raw.isValid_iff_exists_append, ← String.utf8ByteSize_append]
      exact ⟨_, _, by rw [htext, String.append_assoc], rfl⟩

/-- A point without digits behind it is a symbol, and so is a letter of two bytes. -/
example : (lex "3.é1").map (fun o => (o.kind, o.start)) =
    [(.integer, 0), (.symbol, 1), (.symbol, 2), (.integer, 4)] := by cbv

end Token

end Fluxion

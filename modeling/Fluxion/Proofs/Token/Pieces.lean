import Fluxion.Proofs.Token.Lexing

/-!
# Tokens of a text in pieces

A text that is put together from pieces has the tokens of the pieces, as long as no two of them run
into one another: a word or a number has to be followed by a mark (`Neat`). `Spelled` says that
tokens are those of given pieces wherever the pieces stand, and `Neat.spelled` that lexing finds
them. Blanks leave no trace, and a minus sign in the same piece as a number ends where the number
starts.
-/

namespace Fluxion

/-- No word or number goes on with these characters. -/
def Detached (cs : List Char) : Prop := ∀ c ∈ cs.head?, c.isAlphanum = false ∧ c ≠ '.'

theorem isDigit_eq_false_of_not_alphanum {c : Char} (h : c.isAlphanum = false) :
    c.isDigit = false := by
  rw [Char.isAlphanum, Bool.or_eq_false_iff] at h
  exact h.2

theorem isAlphanum_of_isDigit {c : Char} (h : c.isDigit = true) : c.isAlphanum = true := by
  rw [Char.isAlphanum, h, Bool.or_true]

theorem isAlphanum_of_isAlpha {c : Char} (h : c.isAlpha = true) : c.isAlphanum = true := by
  rw [Char.isAlphanum, h, Bool.true_or]

/-- Letters and digits are no blanks. -/
theorem isBlankChar_of_isAlphanum {c : Char} (h : c.isAlphanum = true) : isBlankChar c = false := by
  rw [← Bool.not_eq_true]
  intro hblank
  simp only [isBlankChar, Bool.or_eq_true, beq_iff_eq] at hblank
  rcases hblank with ((rfl | rfl) | rfl) | rfl <;> exact absurd h (by decide)

/-- Digits are no letters. -/
theorem isAlpha_of_isDigit {c : Char} (h : c.isDigit = true) : c.isAlpha = false := by
  have hdigit : c.val ≤ '9'.val := of_decide_eq_true ((Bool.and_eq_true _ _).mp h).2
  have hnine : c.val.toNat ≤ 57 := UInt32.le_iff_toNat_le.1 hdigit
  refine Bool.eq_false_iff.2 fun halpha => ?_
  rcases (Bool.or_eq_true _ _).mp halpha with hupper | hlower
  · have hA : 'A'.val ≤ c.val := (of_decide_eq_true hupper).1
    have hletter : 65 ≤ c.val.toNat := UInt32.le_iff_toNat_le.1 hA
    omega
  · have ha : 'a'.val ≤ c.val := of_decide_eq_true ((Bool.and_eq_true _ _).mp hlower).1
    have hletter : 97 ≤ c.val.toNat := UInt32.le_iff_toNat_le.1 ha
    omega

/-- A mark is neither a blank nor a letter nor a digit. -/
theorem Punct.char_spec (mark : Punct) :
    isBlankChar mark.char = false ∧ mark.char.isAlphanum = false ∧ mark.char ≠ '.' := by
  cases mark <;> decide

namespace Cut

variable {p : Char → Bool} {c : Char} {cs more rest : List Char}

/-- A run ends where a character does not satisfy its condition. -/
theorem run_of_append (kind : List Char → Kind) (c : Char) (hmore : ∀ d ∈ more, p d = true)
    (hrest : ∀ d ∈ rest.head?, p d = false) :
    run kind p c (more ++ rest) = ⟨kind (c :: more), c :: more, rest⟩ := by
  have htake : rest.takeWhile p = [] := by
    cases rest with
    | nil => rfl
    | cons d rest => rw [List.takeWhile_cons, hrest d rfl]; rfl
  have hdrop : rest.dropWhile p = rest := by
    cases rest with
    | nil => rfl
    | cons d rest => rw [List.dropWhile_cons, hrest d rfl]; rfl
  rw [run, List.takeWhile_append_of_pos hmore, List.dropWhile_append_of_pos hmore, htake, hdrop,
    List.append_nil]

/-- What starts with a digit is cut as a number. -/
theorem ofChars_digit (hc : c.isDigit = true) (cs : List Char) : ofChars c cs = number c cs := by
  rw [ofChars, isBlankChar_of_isAlphanum (isAlphanum_of_isDigit hc), isAlpha_of_isDigit hc, hc]
  simp

/-- A mark is cut by itself, whatever follows. -/
theorem ofChars_mark (mark : Punct) (cs : List Char) :
    ofChars mark.char cs = ⟨.punct mark, [mark.char], cs⟩ := by
  obtain ⟨hblank, halnum, -⟩ := mark.char_spec
  rw [Char.isAlphanum, Bool.or_eq_false_iff] at halnum
  rw [ofChars, hblank, halnum.1, halnum.2]
  simp [singleKind]

/-- A word is cut off where no word goes on, with its class. -/
theorem ofChars_word (hword : IsWord (c :: cs)) (hrest : Detached rest) :
    ofChars c (cs ++ rest) = ⟨wordKind (c :: cs), c :: cs, rest⟩ := by
  obtain ⟨c', more, h, hc, hmore⟩ := hword
  cases h
  rw [ofChars, isBlankChar_of_isAlphanum (isAlphanum_of_isAlpha hc), hc]
  exact run_of_append wordKind c hmore fun d hd => (hrest d hd).1

theorem ofChars_integer (hdigits : IsDigits (c :: cs)) (hrest : Detached rest) :
    ofChars c (cs ++ rest) = ⟨.integer, c :: cs, rest⟩ := by
  have hrun : run (fun _ => .integer) Char.isDigit c (cs ++ rest) = ⟨.integer, c :: cs, rest⟩ :=
    run_of_append _ c (fun d hd => hdigits.2 d (List.mem_cons_of_mem _ hd))
      fun d hd => isDigit_eq_false_of_not_alphanum (hrest d hd).1
  rw [ofChars_digit (hdigits.2 c List.mem_cons_self), number]
  simp only [hrun]
  split
  · exact absurd rfl (hrest '.' rfl).2
  · rfl

/-- Digits with a point between them are cut as far as they go. -/
theorem ofChars_decimal (hwhole : IsDigits (c :: cs)) (hfraction : IsDigits more)
    (hrest : Detached rest) :
    ofChars c (cs ++ '.' :: (more ++ rest)) = ⟨.decimal, c :: (cs ++ '.' :: more), rest⟩ := by
  obtain ⟨d, more, rfl⟩ : ∃ d tail, more = d :: tail := List.exists_cons_of_ne_nil hfraction.1
  have hd : d.isDigit = true := hfraction.2 d List.mem_cons_self
  have hrun : run (fun _ => .integer) Char.isDigit c (cs ++ '.' :: d :: (more ++ rest)) =
      ⟨.integer, c :: cs, '.' :: d :: (more ++ rest)⟩ :=
    run_of_append _ c (fun d hd => hwhole.2 d (List.mem_cons_of_mem _ hd))
      (by rintro e he; cases he; decide)
  have hrun' : run (fun _ => .decimal) Char.isDigit d (more ++ rest) =
      ⟨.decimal, d :: more, rest⟩ :=
    run_of_append _ d (fun e he => hfraction.2 e (List.mem_cons_of_mem _ he))
      fun e he => isDigit_eq_false_of_not_alphanum (hrest e he).1
  rw [List.cons_append, ofChars_digit (hwhole.2 c List.mem_cons_self), number]
  simp only [hrun, hd, if_true, hrun', List.cons_append]

end Cut

/-- The classes of words, numbers and marks. -/
def Kind.IsSolid : Kind → Prop
  | blank | symbol => False
  | _ => True

/-- Marks stand for themselves, and all other tokens must not be gone on with. -/
def Kind.Ends : Kind → List Char → Prop
  | punct _, _ => True
  | _, rest => Detached rest

theorem Keyword.isWord (word : Keyword) : IsWord word.text.toList := by
  cases word <;> exact ⟨_, _, rfl, rfl, List.all_eq_true.1 rfl⟩

/-- What is spelled as a class says is cut off as a token of that class. -/
theorem Cut.ofChars_of_spells {kind : Kind} {c : Char} {cs rest : List Char}
    (h : kind.Spells (c :: cs)) (hkind : kind.IsSolid) (hrest : kind.Ends rest) :
    ofChars c (cs ++ rest) = ⟨kind, c :: cs, rest⟩ := by
  cases kind with
  | blank => exact hkind.elim
  | symbol => exact hkind.elim
  | punct mark =>
    have hcs : c :: cs = [mark.char] := h
    cases hcs
    exact ofChars_mark mark rest
  | keyword word =>
    -- a keyword is cut off as a word, and told from the names by its text
    have hcs : c :: cs = word.text.toList := h
    have hword : IsWord (c :: cs) := hcs ▸ word.isWord
    rw [ofChars_word hword hrest, wordKind, hcs, String.ofList_toList, Keyword.ofText?_text]
  | name =>
    rw [ofChars_word h.1 hrest, wordKind, h.2]
  | integer => exact ofChars_integer h hrest
  | decimal =>
    obtain ⟨whole, fraction, hcs, hwhole, hfraction⟩ := h
    obtain ⟨d, more, rfl⟩ := List.exists_cons_of_ne_nil hwhole.1
    rw [List.cons_append, List.cons.injEq] at hcs
    obtain ⟨rfl, rfl⟩ := hcs
    rw [List.append_assoc]
    exact ofChars_decimal hwhole hfraction hrest

theorem Kind.Spells.ne_nil {kind : Kind} {cs : List Char} (h : kind.Spells cs) : cs ≠ [] := by
  rintro rfl
  cases kind with
  | blank => exact h.1 rfl
  | punct => cases h
  | keyword word => cases word <;> cases h
  | name =>
    obtain ⟨⟨c, more, h, -⟩, -⟩ := h
    cases h
  | integer => exact h.1 rfl
  | decimal =>
    obtain ⟨whole, fraction, h, -⟩ := h
    simp at h
  | symbol =>
    obtain ⟨c, h, -⟩ := h
    cases h

namespace Token

/-- The tokens that are not blank, of characters the first of which stands at byte `start`. -/
def significantFrom (start : Nat) (cs : List Char) : List Token :=
  (lexFrom start cs).filter fun o => !o.isBlank

theorem significant_eq (text : String) : significant text = significantFrom 0 text.toList := rfl

@[simp] theorem significantFrom_nil (start : Nat) : significantFrom start [] = [] := by
  rw [significantFrom, lexFrom]
  rfl

variable {kind : Kind} {s : String} {rest : List Char}

/-- A token at the front, where it is not gone on with. -/
theorem significantFrom_append (start : Nat) (h : kind.Spells s.toList) (hkind : kind.IsSolid)
    (hrest : kind.Ends rest) :
    significantFrom start (s.toList ++ rest) =
      ⟨kind, s, start⟩ :: significantFrom (start + s.utf8ByteSize) rest := by
  obtain ⟨c, cs, hcs⟩ := List.exists_cons_of_ne_nil h.ne_nil
  rw [hcs] at h
  have hs : String.ofList (c :: cs) = s := by rw [← hcs, String.ofList_toList]
  have hblank : (fun o : Token => !o.isBlank) ⟨kind, s, start⟩ = true := by
    cases kind <;> first | rfl | exact hkind.elim
  rw [hcs, List.cons_append, significantFrom, lexFrom, Cut.ofChars_of_spells h hkind hrest, hs]
  exact List.filter_cons_of_pos hblank

/-- A run of blank characters is one token, which is left out. -/
theorem significantFrom_blanks (start : Nat) {c : Char} (hc : isBlankChar c = true)
    (cs : List Char) :
    significantFrom start (c :: cs) = significantFrom
      (start + (String.ofList (c :: cs.takeWhile isBlankChar)).utf8ByteSize)
      (cs.dropWhile isBlankChar) := by
  have hcut : Cut.ofChars c cs =
      ⟨.blank, c :: cs.takeWhile isBlankChar, cs.dropWhile isBlankChar⟩ := by
    rw [Cut.ofChars, if_pos hc]
    rfl
  rw [significantFrom, lexFrom, hcut]
  rfl

theorem add_utf8ByteSize_blank (start : Nat) (cs : List Char) :
    start + (String.ofList (' ' :: cs)).utf8ByteSize =
      start + 1 + (String.ofList cs).utf8ByteSize := by
  have hcons : String.ofList (' ' :: cs) = " " ++ String.ofList cs := by
    rw [← String.toList_inj]
    simp
  rw [hcons, String.utf8ByteSize_append, ← Nat.add_assoc]
  rfl

/-- A blank at the front leaves no token. -/
theorem significantFrom_blank (start : Nat) (rest : List Char) :
    significantFrom start (' ' :: rest) = significantFrom (start + 1) rest := by
  rw [significantFrom_blanks start (by rfl)]
  cases rest with
  | nil => simp
  | cons c cs =>
    by_cases hc : isBlankChar c = true
    · -- the second blank is part of the same token, and starts one of its own on the right
      rw [significantFrom_blanks (start + 1) hc, List.takeWhile_cons_of_pos hc,
        List.dropWhile_cons_of_pos hc, add_utf8ByteSize_blank]
    · rw [List.takeWhile_cons_of_neg hc, List.dropWhile_cons_of_neg hc]
      rfl

end Token

/-! ## Pieces -/

/-- A blank or a punctuation mark. -/
def IsMark (p : String) : Prop := p = " " ∨ ∃ mark : Punct, p.toList = [mark.char]

/-- The spelling of a number without a sign. -/
def IsNumeral (s : String) : Prop :=
  Kind.integer.Spells s.toList ∨ Kind.decimal.Spells s.toList

/-- A word, or a number with a minus sign perhaps. -/
def IsItem (p : String) : Prop :=
  IsWord p.toList ∨ IsNumeral p ∨ ∃ s, p = "-" ++ s ∧ IsNumeral s

/-- Pieces in which no two items stand side by side. -/
inductive Neat : List String → Prop
  | nil : Neat []
  | mark {p : String} {ps : List String} : IsMark p → Neat ps → Neat (p :: ps)
  | last {p : String} : IsItem p → Neat [p]
  | item {p q : String} {ps : List String} : IsItem p → IsMark q → Neat ps → Neat (p :: q :: ps)

/-- The tokens are those of the pieces, one piece after another, wherever each may stand. -/
def Spelled : List String → List Token → Prop
  | [], w => w = []
  | p :: ps, w => ∃ start w', w = Token.significantFrom start p.toList ++ w' ∧ Spelled ps w'

/-- Pieces in two rows have tokens in two rows. -/
theorem spelled_append {ps qs : List String} {w : List Token} :
    Spelled (ps ++ qs) w ↔ ∃ v u, w = v ++ u ∧ Spelled ps v ∧ Spelled qs u := by
  induction ps generalizing w with
  | nil =>
    constructor
    · intro h
      exact ⟨[], w, rfl, rfl, h⟩
    · rintro ⟨v, u, rfl, rfl, h⟩
      exact h
  | cons p ps ih =>
    constructor
    · rintro ⟨start, w', rfl, h⟩
      obtain ⟨v, u, rfl, hv, hu⟩ := ih.1 h
      exact ⟨_, u, (List.append_assoc ..).symm, ⟨start, v, rfl, hv⟩, hu⟩
    · rintro ⟨_, u, rfl, ⟨start, v, rfl, hv⟩, hu⟩
      exact ⟨start, v ++ u, List.append_assoc .., ih.2 ⟨v, u, rfl, hv, hu⟩⟩

/-- Neat pieces stay so with a mark between them. -/
theorem Neat.append_mark {p : String} {ps qs : List String} (h : Neat ps) (hp : IsMark p)
    (h' : Neat qs) : Neat (ps ++ p :: qs) := by
  induction h with
  | nil => exact .mark hp h'
  | mark hmark _ ih => exact .mark hmark ih
  | last hitem => exact .item hitem hp h'
  | item hitem hmark _ ih => exact .item hitem hmark ih

theorem detached_nil : Detached [] := fun _ h => nomatch h

theorem Kind.ends_nil (kind : Kind) : kind.Ends [] := by
  cases kind <;> first | trivial | exact detached_nil

/-- No item goes on with a mark. -/
theorem IsMark.detached {p : String} (h : IsMark p) (rest : List Char) :
    Detached (p.toList ++ rest) := by
  intro c hc
  rcases h with rfl | ⟨mark, h⟩
  · cases hc
    decide
  · rw [h] at hc
    cases hc
    exact mark.char_spec.2

namespace Token

variable {p s : String} {kind : Kind} {rest : List Char}

/-- The text of a token has that one token. -/
theorem significantFrom_token (start : Nat) (h : kind.Spells s.toList) (hkind : kind.IsSolid) :
    significantFrom start s.toList = [⟨kind, s, start⟩] := by
  have h := significantFrom_append start h hkind kind.ends_nil
  rwa [List.append_nil, significantFrom_nil] at h

/-- The tokens of what starts with a token are that token and those of the rest. -/
theorem significantFrom_split (start : Nat) (h : kind.Spells s.toList) (hkind : kind.IsSolid)
    (hrest : kind.Ends rest) :
    significantFrom start (s.toList ++ rest) =
      significantFrom start s.toList ++ significantFrom (start + s.utf8ByteSize) rest := by
  rw [significantFrom_append start h hkind hrest, significantFrom_token start h hkind]
  rfl

/-- Behind a mark tokens start anew. -/
theorem significantFrom_mark (start : Nat) (h : IsMark p) (rest : List Char) :
    significantFrom start (p.toList ++ rest) =
      significantFrom start p.toList ++ significantFrom (start + p.utf8ByteSize) rest := by
  rcases h with rfl | ⟨mark, h⟩
  · show significantFrom start (' ' :: rest) = significantFrom start [' '] ++ _
    rw [significantFrom_blank, significantFrom_blank, significantFrom_nil, List.nil_append]
    rfl
  · have hspells : (Kind.punct mark).Spells p.toList := h
    exact significantFrom_split start hspells trivial trivial

theorem minus_spells : (Kind.punct .minus).Spells ("-" : String).toList := rfl

/-- Behind a number tokens start anew if nothing prolongs it. -/
theorem significantFrom_numeral (start : Nat) (h : IsNumeral s) (hrest : Detached rest) :
    significantFrom start (s.toList ++ rest) =
      significantFrom start s.toList ++ significantFrom (start + s.utf8ByteSize) rest := by
  rcases h with h | h
  · exact significantFrom_split start h trivial hrest
  · exact significantFrom_split start h trivial hrest

/-- A minus sign is a token of its own, also in front of a number. -/
theorem significantFrom_minus (start : Nat) (s : String) (rest : List Char) :
    significantFrom start (("-" ++ s).toList ++ rest) =
      ⟨.punct .minus, "-", start⟩ :: significantFrom (start + 1) (s.toList ++ rest) := by
  rw [String.toList_append, List.append_assoc,
    significantFrom_append start minus_spells trivial trivial]
  rfl

/-- Behind a word tokens start anew if nothing prolongs it. -/
theorem significantFrom_word (start : Nat) (h : IsWord s.toList) (hrest : Detached rest) :
    significantFrom start (s.toList ++ rest) =
      significantFrom start s.toList ++ significantFrom (start + s.utf8ByteSize) rest := by
  have hspells := Cut.wordKind_spells h
  unfold Cut.wordKind at hspells
  split at hspells
  · exact significantFrom_split start hspells trivial hrest
  · exact significantFrom_split start hspells trivial hrest

/-- An item has tokens of its own, where nothing goes on with it. -/
theorem significantFrom_item (start : Nat) (h : IsItem p) (hrest : Detached rest) :
    significantFrom start (p.toList ++ rest) =
      significantFrom start p.toList ++ significantFrom (start + p.utf8ByteSize) rest := by
  rcases h with h | h | ⟨s, rfl, h⟩
  · exact significantFrom_word start h hrest
  · exact significantFrom_numeral start h hrest
  · have halone := significantFrom_minus start s []
    rw [List.append_nil, List.append_nil] at halone
    rw [significantFrom_minus, halone, significantFrom_numeral (start + 1) h hrest,
      String.utf8ByteSize_append, ← Nat.add_assoc]
    rfl

end Token

/-- The tokens of neat pieces in a row are those of the pieces. -/
theorem Neat.spelled {ps : List String} (h : Neat ps) (start : Nat) :
    Spelled ps (Token.significantFrom start (ps.flatMap String.toList)) := by
  induction h generalizing start with
  | nil => exact Token.significantFrom_nil start
  | mark hp _ ih =>
    rw [List.flatMap_cons, Token.significantFrom_mark start hp]
    exact ⟨start, _, rfl, ih _⟩
  | last hp =>
    rw [List.flatMap_cons, List.flatMap_nil, Token.significantFrom_item start hp detached_nil]
    exact ⟨start, _, rfl, Token.significantFrom_nil _⟩
  | item hp hq _ ih =>
    rw [List.flatMap_cons, List.flatMap_cons, Token.significantFrom_item start hp (hq.detached _),
      Token.significantFrom_mark _ hq]
    exact ⟨start, _, rfl, _, _, rfl, ih _⟩

/-! ## Reading pieces off the tokens -/

section Spelled

variable {p s : String} {ps : List String} {w : List Token} {kind : Kind}

/-- A piece that is one token. -/
theorem Spelled.token (h : Spelled (p :: ps) w) (hp : kind.Spells p.toList)
    (hkind : kind.IsSolid) :
    ∃ o w', w = o :: w' ∧ o.kind = kind ∧ o.text = p ∧ Spelled ps w' := by
  obtain ⟨start, w', rfl, h⟩ := h
  rw [Token.significantFrom_token start hp hkind]
  exact ⟨_, w', rfl, rfl, rfl, h⟩

theorem Spelled.punct (h : Spelled (p :: ps) w) (mark : Punct) (hp : p.toList = [mark.char]) :
    ∃ o w', w = o :: w' ∧ o.kind = .punct mark ∧ Spelled ps w' := by
  have hspells : (Kind.punct mark).Spells p.toList := hp
  obtain ⟨o, w', rfl, hkind, -, h⟩ := h.token hspells trivial
  exact ⟨o, w', rfl, hkind, h⟩

theorem Spelled.keyword (h : Spelled (p :: ps) w) (word : Keyword) (hp : p = word.text) :
    ∃ o w', w = o :: w' ∧ o.kind = .keyword word ∧ Spelled ps w' := by
  have hspells : (Kind.keyword word).Spells p.toList := congrArg String.toList hp
  obtain ⟨o, w', rfl, hkind, -, h⟩ := h.token hspells trivial
  exact ⟨o, w', rfl, hkind, h⟩

theorem Spelled.blank (h : Spelled (" " :: ps) w) : Spelled ps w := by
  obtain ⟨start, w', rfl, h⟩ := h
  have hnone : Token.significantFrom start (" " : String).toList = [] := by
    show Token.significantFrom start [' '] = []
    rw [Token.significantFrom_blank, Token.significantFrom_nil]
  rwa [hnone]

/-- The token of a number comes first, with its text. -/
theorem Spelled.numeral (h : Spelled (s :: ps) w) (hs : IsNumeral s) :
    ∃ o w', w = o :: w' ∧ o.isNumber = true ∧ o.text = s ∧ Spelled ps w' := by
  rcases hs with hs | hs
  · obtain ⟨o, w', rfl, hkind, htext, h⟩ := h.token hs trivial
    exact ⟨o, w', rfl, by rw [Token.isNumber, hkind]; rfl, htext, h⟩
  · obtain ⟨o, w', rfl, hkind, htext, h⟩ := h.token hs trivial
    exact ⟨o, w', rfl, by rw [Token.isNumber, hkind]; rfl, htext, h⟩

/-- A minus sign and a number in one piece are two tokens side by side. -/
theorem Spelled.negative (h : Spelled (("-" ++ s) :: ps) w) (hs : IsNumeral s) :
    ∃ sign o w', w = sign :: o :: w' ∧ sign.kind = .punct .minus ∧ o.isNumber = true ∧
      o.text = s ∧ sign.stop = o.start ∧ Spelled ps w' := by
  obtain ⟨start, w', rfl, h⟩ := h
  have htokens := Token.significantFrom_minus start s []
  rw [List.append_nil, List.append_nil] at htokens
  rw [htokens]
  rcases hs with hs | hs
  · rw [Token.significantFrom_token _ hs trivial]
    exact ⟨_, _, w', rfl, rfl, rfl, rfl, rfl, h⟩
  · rw [Token.significantFrom_token _ hs trivial]
    exact ⟨_, _, w', rfl, rfl, rfl, rfl, rfl, h⟩

end Spelled

end Fluxion

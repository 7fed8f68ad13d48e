import Fluxion.Token.Lexer

/-!
# The tokens of a text

A token is spelled as its class says (`Kind.Spells`), and the spellings of the tokens of a text, put
together, are the text (`Token.flatMap_lexFrom`). So the character `$`, which is in no longer token,
is in the text exactly if one of its tokens is the end mark.
-/

namespace Fluxion

/-- A row of one or more digits. -/
def IsDigits (cs : List Char) : Prop := cs ≠ [] ∧ ∀ c ∈ cs, c.isDigit = true

/-- A letter and then letters and digits. -/
def IsWord (cs : List Char) : Prop :=
  ∃ c more, cs = c :: more ∧ c.isAlpha = true ∧ ∀ d ∈ more, d.isAlphanum = true

/-- What the tokens of a class are spelled like. -/
def Kind.Spells : Kind → List Char → Prop
  | blank, cs => cs ≠ [] ∧ ∀ c ∈ cs, isBlankChar c = true
  | punct mark, cs => cs = [mark.char]
  | keyword word, cs => cs = word.text.toList
  | name, cs => IsWord cs ∧ Keyword.ofText? (String.ofList cs) = none
  | integer, cs => IsDigits cs
  | decimal, cs => ∃ whole fraction, cs = whole ++ '.' :: fraction ∧ IsDigits whole ∧
      IsDigits fraction
  | symbol, cs => ∃ c, cs = [c] ∧ Punct.ofChar? c = none

/-- A mark is found by its own character only. -/
theorem Punct.ofChar?_eq_some {c : Char} {mark : Punct} (h : Punct.ofChar? c = some mark) :
    c = mark.char := by
  unfold Punct.ofChar? at h
  split at h <;> cases h <;> rfl

@[simp] theorem Punct.ofChar?_char (mark : Punct) : Punct.ofChar? mark.char = some mark := by
  cases mark <;> rfl

theorem Keyword.ofText?_eq_some {word : Keyword} {text : String}
    (h : Keyword.ofText? text = some word) : word.text = text := by
  have := List.find?_some h
  simpa using this

@[simp] theorem Keyword.ofText?_text (word : Keyword) : Keyword.ofText? word.text = some word := by
  cases word <;> decide

namespace Cut

variable {p : Char → Bool} {c : Char} {cs : List Char}

theorem mem_takeWhile {d : Char} (h : d ∈ cs.takeWhile p) : p d = true :=
  List.all_eq_true.1 List.all_takeWhile d h

/-- A run and what is left of it are all characters. -/
theorem run_append (kind : List Char → Kind) (p : Char → Bool) (c : Char) (cs : List Char) :
    (run kind p c cs).lexeme ++ (run kind p c cs).rest = c :: cs := by
  simp [run]

/-- Digits, up to the first character that is none. -/
theorem isDigits_run (kind : List Char → Kind) (hc : c.isDigit = true) (cs : List Char) :
    IsDigits (run kind Char.isDigit c cs).lexeme := by
  refine ⟨List.cons_ne_nil _ _, fun d hd => ?_⟩
  rcases List.mem_cons.1 hd with rfl | hd
  · exact hc
  · exact mem_takeWhile hd

/-- A word has the class of the keyword that it is, or else that of names. -/
theorem wordKind_spells (h : IsWord cs) : (wordKind cs).Spells cs := by
  unfold wordKind
  split
  · next word hword =>
    have htext : word.text = String.ofList cs := Keyword.ofText?_eq_some hword
    show cs = word.text.toList
    rw [htext, String.toList_ofList]
  · next hnone => exact ⟨h, hnone⟩

/-- A number is cut off the front, and is spelled like an integer or a decimal. -/
theorem number_spec (hc : c.isDigit = true) (cs : List Char) :
    (number c cs).kind.Spells (number c cs).lexeme ∧
      (number c cs).lexeme ++ (number c cs).rest = c :: cs := by
  have hwhole := isDigits_run (fun _ => .integer) hc cs
  have happend := run_append (fun _ => .integer) Char.isDigit c cs
  unfold number
  simp only
  split
  · next d more hrest =>
    split
    · next hd =>
      have hfraction := isDigits_run (fun _ => .decimal) hd more
      refine ⟨⟨_, _, rfl, hwhole, hfraction⟩, ?_⟩
      rw [hrest] at happend
      simp only [List.append_assoc, List.cons_append, run_append]
      exact happend
    · exact ⟨hwhole, happend⟩
  · exact ⟨hwhole, happend⟩

/-- A token is cut off the front, and is spelled as its class says. -/
theorem ofChars_spec (c : Char) (cs : List Char) :
    (ofChars c cs).kind.Spells (ofChars c cs).lexeme ∧
      (ofChars c cs).lexeme ++ (ofChars c cs).rest = c :: cs := by
  unfold ofChars
  split
  · next hc =>
    refine ⟨⟨List.cons_ne_nil _ _, fun d hd => ?_⟩, run_append ..⟩
    rcases List.mem_cons.1 hd with rfl | hd
    · exact hc
    · exact mem_takeWhile hd
  split
  · next hc => exact ⟨wordKind_spells ⟨c, _, rfl, hc, fun d hd => mem_takeWhile hd⟩, run_append ..⟩
  split
  · next hc => exact number_spec hc cs
  · refine ⟨?_, rfl⟩
    simp only [singleKind]
    split
    · next mark h => exact congrArg (fun d => [d]) (Punct.ofChar?_eq_some h)
    · next h => exact ⟨c, rfl, h⟩

end Cut

/-- Only the end mark is spelled with a `$`. -/
theorem Kind.Spells.dollar_mem {kind : Kind} {cs : List Char} (h : kind.Spells cs) :
    '$' ∈ cs ↔ kind = .punct .dollar := by
  cases kind with
  | blank => simpa using fun hmem => absurd (h.2 _ hmem) (by decide)
  | punct mark =>
    have hcs : cs = [mark.char] := h
    subst hcs
    cases mark <;> decide
  | keyword word =>
    have hcs : cs = word.text.toList := h
    subst hcs
    cases word <;> decide
  | name =>
    -- the first character is a letter, the others are letters or digits
    obtain ⟨⟨c, more, rfl, hc, hmore⟩, -⟩ := h
    simp only [reduceCtorEq, iff_false, List.mem_cons, not_or]
    refine ⟨?_, fun hmem => absurd (hmore _ hmem) (by decide)⟩
    rintro rfl
    exact absurd hc (by decide)
  | integer => simpa using fun hmem => absurd (h.2 _ hmem) (by decide)
  | decimal =>
    obtain ⟨whole, fraction, rfl, hwhole, hfraction⟩ := h
    simp only [reduceCtorEq, iff_false, List.mem_append, List.mem_cons, not_or]
    refine ⟨fun hmem => absurd (hwhole.2 _ hmem) (by decide), by decide, ?_⟩
    exact fun hmem => absurd (hfraction.2 _ hmem) (by decide)
  | symbol =>
    obtain ⟨c, rfl, hc⟩ := h
    simp only [reduceCtorEq, iff_false, List.mem_singleton]
    rintro rfl
    exact absurd hc (by decide)

namespace Token

/-- Every token is spelled as its class says. -/
theorem spells_of_mem_lexFrom {start : Nat} {cs : List Char} {o : Token}
    (h : o ∈ lexFrom start cs) : o.kind.Spells o.text.toList := by
  induction hlen : cs.length using Nat.strongRecOn generalizing start cs with
  | ind n ih =>
    subst hlen
    cases cs with
    | nil =>
      rw [lexFrom] at h
      cases h
    | cons c cs =>
      rw [lexFrom] at h
      rcases List.mem_cons.1 h with rfl | h
      · simpa using (Cut.ofChars_spec c cs).1
      · exact ih _ (Nat.lt_succ_of_le (Cut.ofChars_rest_length_le c cs)) h rfl

/-- The tokens are the characters in pieces. -/
theorem flatMap_lexFrom (start : Nat) (cs : List Char) :
    (lexFrom start cs).flatMap (fun o => o.text.toList) = cs := by
  induction hlen : cs.length using Nat.strongRecOn generalizing start cs with
  | ind n ih =>
    subst hlen
    cases cs with
    | nil =>
      rw [lexFrom]
      rfl
    | cons c cs =>
      have hrest := ih _ (Nat.lt_succ_of_le (Cut.ofChars_rest_length_le c cs))
        (Token.stop ⟨(Cut.ofChars c cs).kind, String.ofList (Cut.ofChars c cs).lexeme, start⟩) _ rfl
      rw [lexFrom, List.flatMap_cons, hrest, String.toList_ofList]
      exact (Cut.ofChars_spec c cs).2

theorem spells_of_mem_significant {text : String} {o : Token} (h : o ∈ significant text) :
    o.kind.Spells o.text.toList :=
  spells_of_mem_lexFrom (List.mem_filter.1 h).1

/-- A text contains a `$` exactly if the end mark is among its tokens. -/
theorem dollar_mem_iff {text : String} :
    '$' ∈ text.toList ↔ ∃ o ∈ significant text, o.kind = .punct .dollar := by
  have hpieces := flatMap_lexFrom 0 text.toList
  constructor
  · intro h
    rw [← hpieces] at h
    obtain ⟨o, ho, hmem⟩ := List.mem_flatMap.1 h
    have hkind := (spells_of_mem_lexFrom ho).dollar_mem.1 hmem
    exact ⟨o, List.mem_filter.2 ⟨ho, by simp [isBlank, hkind]⟩, hkind⟩
  · rintro ⟨o, ho, hkind⟩
    rw [← hpieces]
    refine List.mem_flatMap.2 ⟨o, (List.mem_filter.1 ho).1, ?_⟩
    exact (spells_of_mem_significant ho).dollar_mem.2 hkind

end Token

end Fluxion

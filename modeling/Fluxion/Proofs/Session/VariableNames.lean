import Fluxion.Proofs.Tree.RoundTrip
import Fluxion.Session.Command

/-!
# Names for the variable of differentiation

The command `:var` takes a word and tests its characters and its length; the grammar reads a word as
a variable if it is lexed as a name and is not too long. For all words that are no keywords the two
agree (`Command.setVariable_iff`). The command does not look for keywords, which no text can have as
a variable (`Command.not_setVariable_iff`).
-/

namespace Fluxion

/-! ## Words of a line -/

namespace Text

variable {c : Char} {cs rest : List Char}

theorem isWhite_of_isAlphanum (h : c.isAlphanum = true) : isWhite c = false := by
  have hbetween {a b : UInt32} (hab : c.val ≥ a ∧ c.val ≤ b) :
      a.toNat ≤ c.toNat ∧ c.toNat ≤ b.toNat :=
    ⟨UInt32.le_iff_toNat_le.1 hab.1, UInt32.le_iff_toNat_le.1 hab.2⟩
  have hcode : 48 ≤ c.toNat ∧ c.toNat ≤ 57 ∨ 65 ≤ c.toNat ∧ c.toNat ≤ 90 ∨
      97 ≤ c.toNat ∧ c.toNat ≤ 122 := by
    rcases (Bool.or_eq_true _ _).mp h with halpha | hdigit
    · rcases (Bool.or_eq_true _ _).mp halpha with hupper | hlower
      · exact Or.inr (Or.inl (hbetween (of_decide_eq_true hupper)))
      · obtain ⟨hleft, hright⟩ := (Bool.and_eq_true _ _).mp hlower
        exact Or.inr (Or.inr (hbetween ⟨of_decide_eq_true hleft, of_decide_eq_true hright⟩))
    · obtain ⟨hleft, hright⟩ := (Bool.and_eq_true _ _).mp hdigit
      exact Or.inl (hbetween ⟨of_decide_eq_true hleft, of_decide_eq_true hright⟩)
  simp only [isWhite, whiteSpaceRanges, List.any_cons, List.any_nil, Bool.or_eq_false_iff,
    Bool.and_eq_false_iff, decide_eq_false_iff_not, and_true]
  omega

/-- A text with no white space at its ends is not trimmed. -/
theorem trim_of_not_white (hfirst : isWhite c = false)
    (hlast : ∀ d ∈ (c :: cs).getLast?, isWhite d = false) : trim (c :: cs) = c :: cs := by
  have hrev : ((c :: cs).reverse).dropWhile isWhite = (c :: cs).reverse := by
    cases h : (c :: cs).reverse with
    | nil => rfl
    | cons d ds =>
      have hd : (c :: cs).getLast? = some d := by rw [← List.head?_reverse, h]; rfl
      rw [List.dropWhile_cons, hlast d hd]
      rfl
  rw [trim, List.dropWhile_cons, hfirst]
  simp only [Bool.false_eq_true, if_false]
  rw [trimEnd, hrev, List.reverse_reverse]

theorem words_nil : words [] = [] := by
  rw [words]
  rfl

/-- A word is cut off where white space follows, or nothing does. -/
theorem words_append (hc : isWhite c = false) (hcs : ∀ d ∈ cs, isWhite d = false)
    (hrest : ∀ d ∈ rest.head?, isWhite d = true) :
    words (c :: (cs ++ rest)) = (c :: cs) :: words rest := by
  have hall : ∀ d ∈ cs, (!isWhite d) = true := fun d hd => by rw [hcs d hd]; rfl
  have htake : rest.takeWhile (fun d => !isWhite d) = [] := by
    cases rest with
    | nil => rfl
    | cons d rest => rw [List.takeWhile_cons, hrest d rfl]; rfl
  have hdrop : rest.dropWhile (fun d => !isWhite d) = rest := by
    cases rest with
    | nil => rfl
    | cons d rest => rw [List.dropWhile_cons, hrest d rfl]; rfl
  have hfirst : (c :: (cs ++ rest)).dropWhile isWhite = c :: (cs ++ rest) := by
    rw [List.dropWhile_cons, hc]
    rfl
  rw [words]
  split
  · next h => rw [hfirst] at h; cases h
  · next d ds h =>
    rw [hfirst] at h
    cases h
    rw [List.takeWhile_append_of_pos hall, List.dropWhile_append_of_pos hall, htake, hdrop,
      List.append_nil]

/-- White space in front does not matter. -/
theorem words_of_white (hc : isWhite c = true) (cs : List Char) : words (c :: cs) = words cs := by
  have hdrop : (c :: cs).dropWhile isWhite = cs.dropWhile isWhite := by
    rw [List.dropWhile_cons, hc]
    rfl
  rw [words, words, hdrop]

end Text

/-! ## Names and commands -/

/-- The text of a name is read as a variable, and no other text is read as the variable with its own
text for a name. -/
theorem Entry.parse_eq_var_iff {α : Type} [Literal α] {x : String} :
    Entry.expression.parse (x ++ "$") = .ok (.var x : Tree α) ↔ IsName x := by
  constructor
  · intro h
    have hshape : Shape.Expression (fun _ : α => True) (.var x) :=
      Entry.shape_of_parse h fun _ _ => trivial
    cases hshape with
    | var hx => exact hx
  · intro hx
    -- a variable has no constants, so it does not matter how those are written
    have hlegible : Legible fun _ : α => False := fun _ h => h.elim
    have hparse : Entry.expression.parse ((.var x : Tree α).text ++ "$") = .ok (.var x) :=
      Entry.parse_text hlegible (Shape.Expression.var hx)
    have htext : (Tree.var x : Tree α).text = x := by
      rw [← String.toList_inj, Tree.text_eq, Tree.pieces_var, List.flatMap_singleton]
    rwa [htext] at hparse

namespace Command

variable {x : String}

/-- The test of the command is that for words of the source language which are not too long. -/
theorem isVariableName_iff :
    isVariableName x = true ↔ IsWord x.toList ∧ x.utf8ByteSize ≤ maxNameBytes := by
  rw [isVariableName, Bool.and_eq_true, Bool.and_eq_true, decide_eq_true_eq, List.all_eq_true]
  constructor
  · rintro ⟨⟨hsize, hfirst⟩, hall⟩
    cases hx : x.toList with
    | nil => rw [hx] at hfirst; cases hfirst
    | cons c cs =>
      rw [hx] at hfirst hall
      exact ⟨⟨c, cs, rfl, hfirst, (List.forall_mem_cons.1 hall).2⟩, hsize⟩
  · rintro ⟨⟨c, cs, hx, hc, hcs⟩, hsize⟩
    rw [hx]
    exact ⟨⟨hsize, hc⟩, List.forall_mem_cons.2 ⟨isAlphanum_of_isAlpha hc, hcs⟩⟩

/-- Only a name that passes the test is ever set. -/
theorem isVariableName_of_ofWords {name : String} {argument : Option String}
    (h : ofWords name argument = .ok (.setVariable x)) : isVariableName x = true := by
  unfold ofWords at h
  split at h
  · obtain ⟨hname, hset⟩ := readVariable_eq_ok h
    cases hset
    exact hname
  · obtain ⟨mode, -, hset⟩ := readMode_eq_ok h
    cases hset
  · obtain ⟨order, -, hset⟩ := readOrder_eq_ok h
    cases hset
  all_goals cases h

theorem isVariableName_of_ofLine? {line : String} (h : ofLine? line = some (.ok (.setVariable x))) :
    isVariableName x = true := by
  unfold ofLine? at h
  split at h
  · exact isVariableName_of_ofWords (Option.some.inj h)
  · cases h

/-- A word of letters and digits after `:var` is the argument of the command. -/
theorem ofLine?_var (hx : IsWord x.toList) : ofLine? (":var " ++ x) = some (readVariable x) := by
  obtain ⟨c, cs, hchars, hc, hcs⟩ := hx
  have hall : ∀ d ∈ c :: cs, Text.isWhite d = false :=
    List.forall_mem_cons.2 ⟨Text.isWhite_of_isAlphanum (isAlphanum_of_isAlpha hc),
      fun d hd => Text.isWhite_of_isAlphanum (hcs d hd)⟩
  have hline : (":var " ++ x).toList = ':' :: ("var ".toList ++ c :: cs) := by
    rw [String.toList_append, hchars]
    rfl
  have htrim : Text.trim (":var " ++ x).toList = ':' :: ("var ".toList ++ c :: cs) := by
    rw [hline]
    refine Text.trim_of_not_white (by decide) fun d hd => hall d ?_
    rw [← List.cons_append, List.getLast?_append, List.getLast?_cons, Option.some_or] at hd
    exact List.mem_of_getLast? (List.getLast?_cons.trans hd)
  have hword : Text.words (c :: cs) = [c :: cs] := by
    have h : Text.words (c :: (cs ++ [])) = (c :: cs) :: Text.words [] :=
      Text.words_append (hall c List.mem_cons_self)
        (fun d hd => hall d (List.mem_cons_of_mem _ hd)) (fun _ hd => nomatch hd)
    rwa [List.append_nil, Text.words_nil] at h
  -- the line is two words, as the blank ends the first and a name has none
  have hwords : Text.words ("var ".toList ++ c :: cs) = ["var".toList, c :: cs] := by
    have h : Text.words ('v' :: (['a', 'r'] ++ ' ' :: c :: cs)) =
        ['v', 'a', 'r'] :: Text.words (' ' :: c :: cs) :=
      Text.words_append rfl (List.forall_mem_cons.2 ⟨rfl, List.forall_mem_singleton.2 rfl⟩)
        (by rintro d hd; cases hd; decide)
    have hblank : Text.words (' ' :: c :: cs) = [c :: cs] :=
      (Text.words_of_white (by decide) _).trans hword
    rwa [hblank] at h
  have hargument : String.ofList (c :: cs) = x := by rw [← hchars, String.ofList_toList]
  rw [ofLine?, htrim]
  simp only [hwords, List.map_cons, List.map_nil, hargument]
  rfl

theorem ofLine?_var_iff :
    ofLine? (":var " ++ x) = some (.ok (.setVariable x)) ↔ isVariableName x = true := by
  constructor
  · exact isVariableName_of_ofLine?
  · intro hname
    rw [ofLine?_var (isVariableName_iff.1 hname).1, readVariable, if_pos hname]

/-- A keyword passes the test as well. -/
theorem isVariableName_keyword (word : Keyword) : isVariableName word.text = true := by
  cases word <;> decide

theorem isName_iff : IsName x ↔ isVariableName x = true ∧ ∀ word : Keyword, x ≠ word.text := by
  rw [isVariableName_iff, IsName, and_assoc]
  refine and_congr_right fun _ => and_congr_right fun _ => ?_
  constructor
  · rintro hnone word rfl
    rw [Keyword.ofText?_text] at hnone
    cases hnone
  · intro hne
    cases hword : Keyword.ofText? x with
    | none => rfl
    | some word => exact absurd (Keyword.ofText?_eq_some hword).symm (hne word)

/-- After `:var` the prompt accepts exactly the words that the language reads as the variable of
that name, and the keywords, which the language never reads so. -/
theorem setVariable_iff (α : Type) [Literal α] (x : String) :
    (ofLine? (":var " ++ x) = some (.ok (.setVariable x)) ↔
      Entry.expression.parse (x ++ "$") = .ok (.var x : Tree α) ∨ ∃ word : Keyword, x = word.text) ∧
    ¬ (Entry.expression.parse (x ++ "$") = .ok (.var x : Tree α) ∧
      ∃ word : Keyword, x = word.text) := by
  rw [ofLine?_var_iff, Entry.parse_eq_var_iff, isName_iff]
  constructor
  · constructor
    · intro hname
      by_cases hword : ∃ word : Keyword, x = word.text
      · exact Or.inr hword
      · exact Or.inl ⟨hname, fun word hx => hword ⟨word, hx⟩⟩
    · rintro (⟨hname, -⟩ | ⟨word, rfl⟩)
      · exact hname
      · exact isVariableName_keyword word
  · rintro ⟨⟨-, hne⟩, word, hx⟩
    exact hne word hx

/-- The prompt accepts `if`, which is no variable. -/
theorem not_setVariable_iff :
    ofLine? ":var if" = some (.ok (.setVariable "if")) ∧
      Entry.expression.parse "if$" ≠ .ok (.var "if" : Tree Float) := by
  constructor
  · exact ofLine?_var_iff.2 (isVariableName_keyword .ifKw)
  · intro h
    have hname : IsName "if" := Entry.parse_eq_var_iff.1 h
    exact absurd hname.2.2 (by decide)

end Command

end Fluxion

import Fluxion.Proofs.Grammar.Answers

/-!
# White space

White space separates tokens and is not read, with one exception: a minus sign belongs to a number
only if nothing stands between them. So of a text nothing matters but its outline, which are the
classes and the texts of its tokens and which of its minus signs have a number right behind. Texts
with the same outline are read as the same tree, or fail for the same reason at the same token
(`Entry.parse_of_same_outline`), although no byte offset needs to be the same in both.
-/

namespace Fluxion

open Fluxion.Parser Fluxion.Grammar

/-! ## Outlines -/

namespace Token

/-- The tokens but for the blank ones: the class and the text of each, and of a minus sign whether
the very next token is a number. -/
def outline : List Token → List (Kind × String × Bool)
  | [] => []
  | o :: ts =>
    if o.isBlank then outline ts
    else (o.kind, o.text, o.kind == .punct .minus && ts.head?.any isNumber) :: outline ts

/-- The outline of tokens that are not blank, by where they stand: of a minus sign whether it ends
where a number starts. -/
def profile : List Token → List (Kind × String × Bool)
  | [] => []
  | o :: ts =>
    (o.kind, o.text, o.kind == .punct .minus &&
      ts.head?.any fun u => u.isNumber && o.stop == u.start) :: profile ts

@[simp] theorem length_profile (ts : List Token) : (profile ts).length = ts.length := by
  induction ts with
  | nil => rfl
  | cons o ts ih => rw [profile, List.length_cons, List.length_cons, ih]

/-- Of the tokens that are not blank the first stands at the start only if no blank is before it. -/
theorem any_head?_significantFrom (start : Nat) (cs : List Char) :
    ((significantFrom start cs).head?.any fun u => u.isNumber && start == u.start) =
      (lexFrom start cs).head?.any isNumber := by
  cases cs with
  | nil =>
    rw [significantFrom_nil, lexFrom]
    rfl
  | cons c cs =>
    cases hc : isBlankChar c with
    | true =>
      have hkind : (Cut.ofChars c cs).kind = .blank := by
        rw [Cut.ofChars, if_pos hc]
        rfl
      -- the next token that is left starts behind the blank
      have hbehind : ∀ u ∈ (significantFrom (start + c.utf8Size) cs).head?,
          (start == u.start) = false := by
        intro u hu
        have hle := start_le_of_mem (List.mem_of_head? hu)
        have hpos := Char.utf8Size_pos c
        simp only [beq_eq_false_iff_ne]
        omega
      rw [significantFrom_of_blank start hc, lexFrom]
      simp only [List.head?_cons, Option.any_some, isNumber, hkind]
      cases hhead : (significantFrom (start + c.utf8Size) cs).head? with
      | none => rfl
      | some u => simp [hbehind u hhead]
    | false =>
      rw [significantFrom_of_not_blank start hc, lexFrom]
      simp [isNumber]

/-- Tokens are next to one another if nothing was left out between them. -/
theorem profile_significantFrom (start : Nat) (cs : List Char) :
    profile (significantFrom start cs) = outline (lexFrom start cs) := by
  induction hlen : cs.length using Nat.strongRecOn generalizing start cs with
  | ind n ih =>
    subst hlen
    cases cs with
    | nil =>
      rw [significantFrom_nil, lexFrom]
      rfl
    | cons c cs =>
      have hshorter := Nat.lt_succ_of_le (Cut.ofChars_rest_length_le c cs)
      rw [significantFrom, lexFrom]
      generalize (⟨_, _, start⟩ : Token) = o
      have hmore := ih _ hshorter o.stop _ rfl
      have hnext := any_head?_significantFrom o.stop (Cut.ofChars c cs).rest
      rw [significantFrom] at hmore hnext
      -- a blank is left out of both; what it says of the neighbours is kept by `hnext`
      by_cases hblank : o.isBlank = true
      · rw [List.filter_cons_of_neg (by simp [hblank]), outline, if_pos hblank, hmore]
      · rw [List.filter_cons_of_pos (by simpa using hblank), outline, if_neg hblank, profile, hmore,
          hnext]

/-- The outline of a text is the profile of its tokens that are not blank. -/
theorem profile_significant (text : String) : profile (significant text) = outline (lex text) :=
  profile_significantFrom 0 text.toList

end Token

/-! ## Ends with the same outline -/

namespace Correspondence

open Token

variable {ws ws' ts ts' : List Token}

/-- The ends of two lists, where they have the same outline. -/
def spaced (ws ws' : List Token) : Correspondence where
  Lists ts ts' := ts <:+ ws ∧ ts' <:+ ws' ∧ profile ts = profile ts'
  head := by
    rintro ts ts' ⟨-, -, h⟩
    cases ts with
    | nil =>
      cases ts' with
      | nil => rfl
      | cons o' ts' => cases h
    | cons o ts =>
      cases ts' with
      | nil => cases h
      | cons o' ts' =>
        obtain ⟨hface, -⟩ := List.cons.inj h
        simp only [Prod.mk.injEq] at hface
        simp only [List.head?_cons, Option.map_some, face, hface.1, hface.2.1]
  tail := by
    rintro o o' ts ts' ⟨hts, hts', h⟩ -
    exact ⟨(List.suffix_cons o ts).trans hts, (List.suffix_cons o' ts').trans hts',
      (List.cons.inj h).2⟩
  shorter := by
    rintro ts ts' us us' ⟨-, -, hts⟩ ⟨-, -, hus⟩
    have hts := congrArg List.length hts
    have hus := congrArg List.length hus
    simp only [length_profile] at hts hus
    rw [hts, hus]
  signed := by
    rintro o o' u u' ts ts' ⟨-, -, h⟩ hminus hnumber
    obtain ⟨hface, htail⟩ := List.cons.inj h
    obtain ⟨hnext, -⟩ := List.cons.inj htail
    simp only [Prod.mk.injEq] at hface hnext
    have hnumber' : u'.isNumber = true := by rwa [isNumber, ← hnext.1]
    have hflag := hface.2.2
    rw [← hface.1, hminus] at hflag
    simp only [List.head?_cons, Option.any_some, beq_self_eq_true, hnumber, hnumber',
      Bool.true_and] at hflag
    rw [← beq_iff_eq, hflag, beq_iff_eq]

/-- Ends that correspond are equally long, so their tokens have the same number. -/
theorem length_eq_of_spaced (h : (spaced ws ws').Lists ts ts') : ts.length = ts'.length := by
  simpa using congrArg List.length h.2.2

/-- Corresponding ends start after the same number of tokens. -/
theorem exists_split_of_spaced (hws : ws.length = ws'.length) (h : (spaced ws ws').Lists ts ts') :
    ∃ w w', ws = w ++ ts ∧ ws' = w' ++ ts' ∧ w.length = w'.length := by
  have hlength := length_eq_of_spaced h
  obtain ⟨⟨w, rfl⟩, ⟨w', rfl⟩, -⟩ := h
  simp only [List.length_append] at hws
  exact ⟨w, w', rfl, rfl, by omega⟩

end Correspondence

/-! ## Places -/

/-- The stretch of text of a token, or the empty one at the end. -/
def Spot.span : Spot → Span
  | token o => o.span
  | stop n => ⟨n, n⟩

/-- After some of the tokens of a text comes what the rest starts with. -/
theorem Token.span_spots {text : String} {w ts : List Token} (h : significant text = w ++ ts) :
    (spots text)[w.length]?.map Spot.span =
      some (ts.head?.elim ⟨text.utf8ByteSize, text.utf8ByteSize⟩ span) := by
  rw [spots, h, List.map_append, List.append_assoc,
    List.getElem?_append_right (by rw [List.length_map]), List.length_map, Nat.sub_self]
  cases ts <;> rfl

namespace Failure

variable {text : String} {f g : Failure} {ts us : List Token}

theorem span_eq_elim (stop : Nat) (f : Failure) :
    f.span stop = f.found.elim ⟨stop, stop⟩ Token.span := by
  rw [span]
  cases f.found <;> rfl

/-- A failure is further if fewer tokens are left. -/
theorem position_lt_of_length_lt (hts : ts <:+ Token.significant text)
    (hus : us <:+ Token.significant text) (hf : f.found = ts.head?) (hg : g.found = us.head?)
    (h : ts.length < us.length) : g.position text.utf8ByteSize < f.position text.utf8ByteSize := by
  cases us with
  | nil => cases h
  | cons o us =>
    obtain ⟨w, hw⟩ := hus
    have hbehind : ts <:+ us := by
      refine List.suffix_of_suffix_length_le hts ⟨w ++ [o], ?_⟩ (Nat.le_of_lt_succ h)
      rw [List.append_assoc]
      exact hw
    rw [position_of_found _ hg]
    exact In.lt_position ⟨ts, hbehind, hf⟩ hw.symm

/-- Which of two failures is further is told by how many tokens are left. -/
theorem position_le_iff (hts : ts <:+ Token.significant text)
    (hus : us <:+ Token.significant text) (hf : f.found = ts.head?) (hg : g.found = us.head?) :
    g.position text.utf8ByteSize ≤ f.position text.utf8ByteSize ↔ ts.length ≤ us.length := by
  rcases Nat.lt_trichotomy ts.length us.length with hlt | heq | hgt
  · have := position_lt_of_length_lt hts hus hf hg hlt
    omega
  · have hsame : ts = us :=
      (List.suffix_of_suffix_length_le hts hus heq.le).eq_of_length heq
    subst hsame
    simp only [position, span_eq_elim, hf, hg, Nat.le_refl]
  · have := position_lt_of_length_lt hus hts hg hf hgt
    omega

end Failure

/-! ## Texts with the same outline -/

/-- Why a text is refused, without where. -/
inductive Reason where
  | unexpectedEnd (expected : Expectation)
  | unexpectedSymbol (expected : Expectation) (found : String)
  | identifierTooLong (name : String)
  deriving DecidableEq

/-- The reason of an error. -/
def SyntaxError.reason : SyntaxError → Reason
  | unexpected f => f.foundText?.elim (.unexpectedEnd f.expected) (.unexpectedSymbol f.expected)
  | nameTooLong name => .identifierTooLong name.text

/-- Errors that correspond have the same reason, since tokens that stand for one another have the
same text. -/
theorem Correspondence.Errors.reason_eq {c : Correspondence} {e e' : SyntaxError}
    (h : c.Errors e e') : e.reason = e'.reason := by
  cases h with
  | nameTooLong ho => exact congrArg Reason.identifierTooLong ho.text_eq
  | @unexpected f f' hf =>
    obtain ⟨hexpected, ts, ts', hlists, hfound, hfound'⟩ := hf
    have htext : f.foundText? = f'.foundText? := by
      rw [Failure.foundText?, Failure.foundText?, hfound, hfound']
      rcases hlists.cases with ⟨rfl, rfl⟩ | ⟨o, us, o', us', rfl, rfl, hkind, htext⟩
      · rfl
      · simp only [List.head?_cons, hkind, htext]
    rw [SyntaxError.reason, SyntaxError.reason, htext, hexpected]

/-- Corresponding errors are at the same of the tokens. -/
theorem Correspondence.Errors.exists_place {text text' : String} {e e' : SyntaxError}
    (hlength : (Token.significant text).length = (Token.significant text').length)
    (h : (spaced (Token.significant text) (Token.significant text')).Errors e e') :
    ∃ i : Nat, (Token.spots text)[i]?.map Spot.span = some (e.span text.utf8ByteSize) ∧
      (Token.spots text')[i]?.map Spot.span = some (e'.span text'.utf8ByteSize) := by
  cases h with
  | nameTooLong ho =>
    obtain ⟨ts, ts', hts⟩ := ho
    obtain ⟨w, w', hw, hw', hsame⟩ := exists_split_of_spaced hlength hts
    exact ⟨w.length, Token.span_spots hw, hsame ▸ Token.span_spots hw'⟩
  | unexpected hf =>
    obtain ⟨-, ts, ts', hts, hfound, hfound'⟩ := hf
    obtain ⟨w, w', hw, hw', hsame⟩ := exists_split_of_spaced hlength hts
    rw [SyntaxError.span, SyntaxError.span, Failure.span_eq_elim, Failure.span_eq_elim, hfound,
      hfound']
    exact ⟨w.length, Token.span_spots hw, hsame ▸ Token.span_spots hw'⟩

namespace Entry

open Correspondence

variable {α : Type} [Literal α] {entry : Entry} {text text' : String}

/-- The answers to two texts are the same tree, or errors for the same reason, as fatal, and at the
same of the tokens, the end counted as a last one. -/
inductive SameAnswer (text text' : String) :
    Except SourceError (Tree α) → Except SourceError (Tree α) → Prop
  | tree (t : Tree α) : SameAnswer text text' (.ok t) (.ok t)
  | error {e e' : SourceError} (i : Nat) : e.cause.reason = e'.cause.reason →
      e.cause.isFatal = e'.cause.isFatal →
      (Token.spots text)[i]?.map Spot.span = some e.span →
      (Token.spots text')[i]?.map Spot.span = some e'.span →
      SameAnswer text text' (.error e) (.error e')

/-- White space is insignificant except between a minus sign and a number. -/
theorem parse_of_same_outline (entry : Entry)
    (h : Token.outline (Token.lex text) = Token.outline (Token.lex text')) :
    SameAnswer (α := α) text text' (entry.parse text) (entry.parse text') := by
  have hprofile : Token.profile (Token.significant text) =
      Token.profile (Token.significant text') := by
    rw [Token.profile_significant, Token.profile_significant, h]
  have hlists : (spaced (Token.significant text) (Token.significant text')).Lists
      (Token.significant text) (Token.significant text') :=
    ⟨List.suffix_refl _, List.suffix_refl _, hprofile⟩
  have hlength := length_eq_of_spaced hlists
  -- of two failures the one with fewer tokens behind it is further on, in either text
  have hpos : ∀ f f' g g',
      (spaced (Token.significant text) (Token.significant text')).Failures f f' →
      (spaced (Token.significant text) (Token.significant text')).Failures g g' →
      (g.position text.utf8ByteSize ≤ f.position text.utf8ByteSize ↔
        g'.position text'.utf8ByteSize ≤ f'.position text'.utf8ByteSize) := by
    rintro f f' g g' ⟨-, ts, ts', hts, hf, hf'⟩ ⟨-, us, us', hus, hg, hg'⟩
    rw [Failure.position_le_iff hts.1 hus.1 hf hg, Failure.position_le_iff hts.2.1 hus.2.1 hf' hg',
      length_eq_of_spaced hts, length_eq_of_spaced hus]
  rcases parse_answers (α := α) entry hlists hpos with ⟨t, ht, ht'⟩ | ⟨e, e', he, hp, hp'⟩
  · rw [ht, ht']
    exact .tree t
  · rw [hp, hp']
    obtain ⟨i, hi, hi'⟩ := he.exists_place hlength
    exact .error i he.reason_eq he.isFatal_eq hi hi'

/-- With and without blanks the parenthesis in `x*(y+)$` is the sixth token. -/
theorem parse_of_same_outline_open_sum :
    Token.outline (Token.lex "x*(y+)$") = Token.outline (Token.lex " x * ( y+ )\n$ ") ∧
    SameAnswer (α := Float) "x*(y+)$" " x * ( y+ )\n$ " (expression.parse "x*(y+)$")
      (expression.parse " x * ( y+ )\n$ ") :=
  have hsame : Token.outline (Token.lex "x*(y+)$") =
      Token.outline (Token.lex " x * ( y+ )\n$ ") := by cbv
  ⟨hsame, parse_of_same_outline expression hsame⟩

end Entry

end Fluxion

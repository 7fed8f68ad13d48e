import Fluxion.Proofs.Grammar.Statements
import Fluxion.Proofs.Token.Lexing

/-!
# The language that is accepted

A text is accepted exactly if it contains a `$` and the tokens before the first one are a sentence
of the grammar, and the tree is then the tree of such a sentence (`Entry.parse_ok_iff_sentence`).
One half is that only phrases are read, the other that every phrase is. What is left is that no
phrase contains the end mark, so that the one that is found after a phrase is the first.
-/

namespace Fluxion

open Fluxion.Parser Fluxion.Grammar

/-- The end mark is not among the tokens. -/
def NoDollar (w : List Token) : Prop := ∀ o ∈ w, o.kind ≠ .punct .dollar

theorem noDollar_nil : NoDollar [] := fun _ h => nomatch h

@[simp] theorem noDollar_cons {o : Token} {w : List Token} :
    NoDollar (o :: w) ↔ o.kind ≠ .punct .dollar ∧ NoDollar w := List.forall_mem_cons

@[simp] theorem noDollar_append {w w' : List Token} :
    NoDollar (w ++ w') ↔ NoDollar w ∧ NoDollar w' := List.forall_mem_append

theorem NoDollar.flatMap {items : List (Token × List Token)}
    (hfirst : ∀ item ∈ items, item.1.kind = .punct .comma)
    (hrest : ∀ item ∈ items, NoDollar item.2) :
    NoDollar (items.flatMap fun item => item.1 :: item.2) := by
  intro o ho
  obtain ⟨item, hitem, ho⟩ := List.mem_flatMap.1 ho
  rcases List.mem_cons.1 ho with rfl | ho
  · simp [hfirst item hitem]
  · exact hrest item hitem o ho

theorem Token.IsIdentifier.ne_dollar {o : Token} (h : o.IsIdentifier) :
    o.kind ≠ .punct .dollar := by
  simp [h.1]

theorem Token.ne_dollar_of_isNumber {o : Token} (h : o.isNumber = true) :
    o.kind ≠ .punct .dollar := by
  intro hk
  simp [Token.isNumber, hk] at h

/-- The end mark is no operator and stands in no operand. -/
theorem Grammar.Runs.noDollar {turn : Turn} {s : List Level} {w : List Token} (h : Runs turn s w) :
    NoDollar w := by
  induction h with
  | stop => exact noDollar_nil
  | @attach s _ mark _ _ ho hu _ ih =>
    have hmark : mark ≠ .dollar := by
      rintro rfl
      exact nomatch hu
    simp [ho, hmark, ih]
  | parenthesized hl _ hr _ ih ih' => simp [hl, hr, ih, ih']
  | assignment hname heq _ ih => simp [hname.ne_dollar, heq, ih]
  | unsigned ho _ ih => simp [Token.ne_dollar_of_isNumber ho, ih]
  | negative hsign ho _ _ ih => simp [hsign, Token.ne_dollar_of_isNumber ho, ih]
  | call hname hl hr _ ih => simp [hname.ne_dollar, hl, hr, ih]
  | callWith hname hl _ hcommas _ hr _ ih ihmore ih' =>
    simp [hname.ne_dollar, hl, hr, ih, ih', NoDollar.flatMap hcommas ihmore]
  | name hname _ ih => simp [hname.ne_dollar, ih]

namespace Phrase

theorem Expression.noDollar {α : Type} [Literal α] {w : List Token} {t : Tree α}
    (h : Expression w t) : NoDollar w := by
  have hruns := h.runs (Runs.stop (s := []))
  rw [List.append_nil] at hruns
  exact hruns.noDollar

mutual

/-- No statement contains the end mark, by recursion over it and the blocks in it. -/
theorem Statement.noDollar {α : Type} [Literal α] {w : List Token} {t : Tree α} :
    Statement w t → NoDollar w
  | .ifThen hkw hl hc hr hyes => by simp [hkw, hl, hc.noDollar, hr, hyes.noDollar]
  | .ifThenElse hkw hl hc hr hyes hkw' hno => by
    simp [hkw, hl, hc.noDollar, hr, hyes.noDollar, hkw', hno.noDollar]
  | .whileLoop hkw hc hbody => by simp [hkw, hc.noDollar, hbody.noDollar]
  | .giveBack hkw hl h hr hs => by simp [hkw, hl, h.noDollar, hr, hs, noDollar_nil]
  | .forLoop hkw hl hfirst hs hc hs' hstep hr hbody => by
    simp [hkw, hl, hfirst.noDollar, hs, hc.noDollar, hs', hstep.noDollar, hr, hbody.noDollar]
  | .expression h hs => by simp [h.noDollar, hs, noDollar_nil]

theorem Block.noDollar {α : Type} [Literal α] {w : List Token} {t : Tree α} :
    Block w t → NoDollar w
  | .mk hl h hr => by simp [hl, h.noDollar, hr, noDollar_nil]

theorem Sequence.noDollar {α : Type} [Literal α] {w : List Token} {ts : List (Tree α)} :
    Sequence w ts → NoDollar w
  | .nil => noDollar_nil
  | .cons h h' => noDollar_append.2 ⟨h.noDollar, h'.noDollar⟩

end

theorem MoreParameters.noDollar {w names : List Token} (h : MoreParameters w names) :
    NoDollar w := by
  induction h with
  | nil => exact noDollar_nil
  | cons hcomma hname _ ih => simp [hcomma, hname.ne_dollar, ih]

theorem Parameters.noDollar {w names : List Token} (h : Parameters w names) : NoDollar w := by
  cases h with
  | none hl hr => simp [hl, hr, noDollar_nil]
  | some hl hname hmore hr => simp [hl, hname.ne_dollar, hmore.noDollar, hr, noDollar_nil]

variable {α : Type} [Literal α]

theorem Definition.noDollar {w : List Token} {t : Tree α} (h : Definition w t) : NoDollar w := by
  cases h with
  | mk hkw hname hparameters hbody =>
    simp [hkw, hname.ne_dollar, hparameters.noDollar, hbody.noDollar]

/-- No program contains the end mark. -/
theorem Program.noDollar {w : List Token} {ts : List (Tree α)} (h : Program w ts) : NoDollar w := by
  induction h with
  | nil => exact noDollar_nil
  | cons h _ ih => exact noDollar_append.2 ⟨h.noDollar, ih⟩

end Phrase

/-- An end mark is added to a text that has none. -/
theorem withSentinel_of_not_mem {text : String} (h : '$' ∉ text.toList) :
    withSentinel text = text ++ "$" := by
  refine if_neg fun hlast => h ?_
  have hmem := List.mem_reverse.1 (List.mem_of_getLast? hlast)
  exact List.mem_reverse.1 (List.dropWhile_subset _ hmem)

/-- The tokens of a text that are not blank, up to the first end mark. -/
def Token.beforeEnd (text : String) : List Token :=
  (Token.significant text).takeWhile fun o => o.kind != .punct .dollar

namespace Entry

variable {α : Type} [Literal α] {entry : Entry} {text : String}

/-- Whatever a text is read as, the end mark is not part of the sentence. -/
theorem Sentence.noDollar {w : List Token} {t : Tree α} (h : entry.Sentence w t) : NoDollar w := by
  cases entry with
  | expression => exact Phrase.Expression.noDollar h
  | statements =>
    obtain ⟨ts, h, -⟩ := h
    exact h.noDollar
  | program =>
    obtain ⟨ts, h, -⟩ := h
    exact h.noDollar

/-- A text is read as a tree if the production reads the tree and the end mark is next. -/
theorem parse_eq_ok {t : Tree α} :
    entry.parse text = .ok t ↔
      ∃ o rest, Yields entry.production (Token.significant text) t (o :: rest) ∧
        o.kind = .punct .dollar := by
  -- a text is accepted if the production and the end mark succeed, whatever was recorded before
  have hcomplete : entry.parse text = .ok t ↔
      ∃ rest, Yields (Parser.attempt (Reading.toEnd (entry.production (α := α))))
        (Token.significant text) t rest := by
    unfold parse Reading.complete Reading.start Yields
    simp only
    cases Parser.attempt (Reading.toEnd (entry.production (α := α))) (Token.significant text) with
    | mk result rest failures =>
      cases result with
      | ok t' => simp
      | error e => cases e <;> simp
  rw [hcomplete]
  simp only [Reading.toEnd, yields_attempt, yields_bind, yields_punct, yields_pure]
  constructor
  · rintro ⟨rest, t', mid, hy, o, mid', ⟨rfl, ho⟩, rfl, rfl⟩
    exact ⟨o, _, hy, ho⟩
  · rintro ⟨o, rest, hy, ho⟩
    exact ⟨rest, t, _, hy, o, rest, ⟨rfl, ho⟩, rfl, rfl⟩

/-- What stands before the first end mark, if there is one. -/
theorem significant_split (h : '$' ∈ text.toList) :
    ∃ o rest, Token.significant text = Token.beforeEnd text ++ o :: rest ∧
      o.kind = .punct .dollar := by
  obtain ⟨o, ho, hkind⟩ := Token.dollar_mem_iff.1 h
  have hsplit := List.takeWhile_append_dropWhile
    (p := fun o : Token => o.kind != .punct .dollar) (l := Token.significant text)
  cases hdrop : (Token.significant text).dropWhile (fun o => o.kind != .punct .dollar) with
  | nil =>
    rw [hdrop, List.append_nil] at hsplit
    rw [← hsplit] at ho
    have := List.all_eq_true.1 List.all_takeWhile o ho
    simp [hkind] at this
  | cons o' rest =>
    refine ⟨o', rest, by rw [← hdrop]; exact hsplit.symm, ?_⟩
    have := List.head?_dropWhile_not (fun o : Token => o.kind != .punct .dollar)
      (Token.significant text)
    rw [hdrop] at this
    simpa using this

/-- Tokens without an end mark that are followed by one are those before the first. -/
theorem beforeEnd_of_split {w rest : List Token} {o : Token}
    (h : Token.significant text = w ++ o :: rest) (hw : NoDollar w) (ho : o.kind = .punct .dollar) :
    Token.beforeEnd text = w := by
  have hall : ∀ o ∈ w, (o.kind != .punct .dollar) = true := by
    intro o' ho'
    simpa using hw o' ho'
  rw [Token.beforeEnd, h, List.takeWhile_append_of_pos hall,
    List.takeWhile_cons_of_neg (by simp [ho]), List.append_nil]

/-- A text that is read as a tree is a sentence of it. -/
theorem sentence_of_parse {t : Tree α} (h : entry.parse text = .ok t) :
    '$' ∈ text.toList ∧ entry.Sentence (Token.beforeEnd text) t := by
  obtain ⟨o, rest, hy, ho⟩ := parse_eq_ok.1 h
  obtain ⟨w, hw, hsentence⟩ := reads_production entry hy
  refine ⟨Token.dollar_mem_iff.2 ⟨o, by rw [hw]; simp, ho⟩, ?_⟩
  rw [beforeEnd_of_split hw hsentence.noDollar ho]
  exact hsentence

/-- Exactly the texts with an end mark after a sentence are accepted, and the tree that comes back
is that of a derivation of all tokens before the mark. -/
theorem parse_ok_iff_sentence (entry : Entry) (text : String) :
    ((∃ t : Tree α, entry.parse text = .ok t) ↔
        '$' ∈ text.toList ∧ ∃ t : Tree α, entry.Sentence (Token.beforeEnd text) t) ∧
      ∀ t : Tree α, entry.parse text = .ok t → entry.Sentence (Token.beforeEnd text) t := by
  refine ⟨⟨?_, ?_⟩, fun t ht => (sentence_of_parse ht).2⟩
  · rintro ⟨t, ht⟩
    exact ⟨(sentence_of_parse ht).1, t, (sentence_of_parse ht).2⟩
  · rintro ⟨hdollar, t, hsentence⟩
    obtain ⟨o, rest, hsplit, ho⟩ := significant_split hdollar
    obtain ⟨t', ht'⟩ := hsentence.yields rest ho
    rw [← hsplit] at ht'
    exact ⟨t', parse_eq_ok.2 ⟨o, rest, ht', ho⟩⟩

end Entry

end Fluxion

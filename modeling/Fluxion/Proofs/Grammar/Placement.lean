import Fluxion.Proofs.Grammar.Spacing
import Fluxion.Proofs.Token.Apart

/-!
# Accepted texts next to one another

A text that is accepted in front of an end mark (`Entry.Accepts`) is read as the same tree wherever
it stands and whatever follows that does not go on with it: an expression before all tokens at which
expressions stop, and statements and definitions before others of them. For the place only matters
to the offsets of the tokens, and what is read of a phrase is the same before all such tokens.
Accepted statements end in a mark, and so do accepted definitions, so that two such texts can be put
together (`Entry.Accepts.append_statements`, `Entry.Accepts.append_definitions`).
-/

namespace Fluxion

open Fluxion.Parser Fluxion.Grammar

/-! ## The last token -/

namespace Token

/-- The last token of two lists is that of the second, or if that is empty that of the first. -/
theorem EndsInMark.append {w w' : List Token} (h : EndsInMark w) (h' : EndsInMark w') :
    EndsInMark (w ++ w') := by
  intro o ho
  rw [List.getLast?_append] at ho
  cases hlast : w'.getLast? with
  | none =>
    rw [hlast] at ho
    exact h o ho
  | some o' =>
    rw [hlast] at ho
    exact h' o (hlast.trans ho)

theorem endsInMark_concat {w : List Token} {o : Token} {mark : Punct} (h : o.kind = .punct mark) :
    EndsInMark (w ++ [o]) := by
  intro o' ho'
  rw [List.getLast?_concat] at ho'
  cases ho'
  exact ⟨mark, h⟩

end Token

namespace Phrase

open Token

variable {α : Type} [Literal α] {w : List Token} {t : Tree α} {ts : List (Tree α)}

/-- A block ends in a brace, whatever stands before it. -/
theorem Block.endsInMark (h : Block w t) (v : List Token) : EndsInMark (v ++ w) := by
  cases h with
  | @mk l r w ts _ _ hr =>
    have hlast := endsInMark_concat (w := v ++ l :: w) hr
    simpa using hlast

theorem Statement.endsInMark (h : Statement w t) : EndsInMark w := by
  cases h with
  | @ifThen kw l r w w' _ _ _ _ _ _ hyes => simpa using hyes.endsInMark (kw :: l :: (w ++ [r]))
  | @ifThenElse kw l r kw' w w' w'' _ _ _ _ _ _ _ _ _ hno =>
    simpa using hno.endsInMark (kw :: l :: (w ++ r :: (w' ++ [kw'])))
  | @whileLoop kw w w' _ _ _ _ hbody => exact hbody.endsInMark (kw :: w)
  | @giveBack kw l r s w _ _ _ _ _ hs =>
    simpa using endsInMark_concat (w := kw :: l :: (w ++ [r])) hs
  | @forLoop kw l s s' r w w' w'' v _ _ _ _ _ _ _ _ _ _ _ _ hbody =>
    simpa using hbody.endsInMark (kw :: l :: (w ++ s :: (w' ++ s' :: (w'' ++ [r]))))
  | expression _ hs => exact endsInMark_concat hs

theorem Sequence.endsInMark (h : Sequence w ts) : EndsInMark w := by
  induction ts generalizing w with
  | nil =>
    cases h
    exact fun _ ho => nomatch ho
  | cons t ts ih =>
    cases h with
    | cons hfirst hmore => exact hfirst.endsInMark.append (ih hmore)

theorem Program.endsInMark (h : Program w ts) : EndsInMark w := by
  induction h with
  | nil => exact fun _ ho => nomatch ho
  | @cons w w' t ts hfirst _ ih =>
    refine EndsInMark.append ?_ ih
    cases hfirst with
    | @mk kw name v v' _ _ _ _ _ hbody => simpa using hbody.endsInMark (kw :: name :: v)

end Phrase

/-! ## Places -/

namespace Token

variable {start : Nat} {cs : List Char}

/-- An outline says nothing of where the text stands. -/
theorem outline_lexFrom (start start' : Nat) (cs : List Char) :
    outline (lexFrom start cs) = outline (lexFrom start' cs) := by
  induction hlen : cs.length using Nat.strongRecOn generalizing start start' cs with
  | ind n ih =>
    subst hlen
    cases cs with
    | nil => rw [lexFrom, lexFrom]
    | cons c cs =>
      -- whether a number follows does not depend on the place either
      have hnext : ∀ (k k' : Nat) (ds : List Char),
          (lexFrom k ds).head?.any isNumber = (lexFrom k' ds).head?.any isNumber := by
        intro k k' ds
        cases ds with
        | nil => rw [lexFrom, lexFrom]
        | cons d ds =>
          rw [lexFrom, lexFrom]
          rfl
      have hmore := fun k k' =>
        ih _ (Nat.lt_succ_of_le (Cut.ofChars_rest_length_le c cs)) k k' _ rfl
      rw [lexFrom, lexFrom]
      simp only [outline, isBlank]
      generalize (⟨_, _, start⟩ : Token).stop = k
      generalize (⟨_, _, start'⟩ : Token).stop = k'
      rw [hmore k k', hnext k k']
      rfl

/-- Where a text stands does not change its profile. -/
theorem profile_significantFrom_eq (start start' : Nat) (cs : List Char) :
    profile (significantFrom start cs) = profile (significantFrom start' cs) := by
  rw [profile_significantFrom, profile_significantFrom, outline_lexFrom start start']

/-- A text without the character has no token of it. -/
theorem noDollar_significantFrom (h : '$' ∉ cs) (start : Nat) :
    NoDollar (significantFrom start cs) := by
  intro o ho hkind
  apply h
  rw [← flatMap_lexFrom start cs]
  exact List.mem_flatMap.2 ⟨o, (List.mem_filter.1 ho).1,
    (spells_of_mem_significantFrom ho).dollar_mem.2 hkind⟩

/-- The end mark after a text is the last token, and stands behind those of the text. -/
theorem significantFrom_dollar (start : Nat) (s : String) :
    ∃ o, o.kind = .punct .dollar ∧
      significantFrom start (s ++ "$").toList = significantFrom start s.toList ++ [o] := by
  have hmark := significantFrom_append_mark start s.toList .dollar []
  rw [significantFrom_nil] at hmark
  refine ⟨⟨.punct .dollar, "$", start + String.utf8Len s.toList⟩, rfl, ?_⟩
  rw [String.toList_append]
  exact hmark

end Token

/-- Of tokens with one end mark behind them the end that starts with the mark is the mark. -/
theorem NoDollar.eq_of_suffix {w rest : List Token} {o o' : Token} (hw : NoDollar w)
    (h : o :: rest <:+ w ++ [o']) (ho : o.kind = .punct .dollar) : o :: rest = [o'] := by
  obtain ⟨v, hv⟩ := h
  rcases List.eq_nil_or_concat rest with rfl | ⟨rest, r, rfl⟩
  · rw [(List.append_inj' hv rfl).2]
  · have hsplit : (v ++ o :: rest) ++ [r] = w ++ [o'] := by simpa using hv
    have hmem : o ∈ w := by
      rw [← (List.append_inj' hsplit rfl).1]
      simp
    exact absurd ho (hw o hmem)

/-- The value and the rest are determined. -/
theorem Parser.Yields.unique {β : Type} {p : Parser β} {ts rest rest' : List Token} {b b' : β}
    (h : Yields p ts b rest) (h' : Yields p ts b' rest') : b' = b ∧ rest' = rest := by
  obtain ⟨fs, h⟩ := h
  obtain ⟨fs', h'⟩ := h'
  cases h.symm.trans h'
  exact ⟨rfl, rfl⟩

theorem Grammar.ends_dollar {o : Token} (ho : o.kind = .punct .dollar) (rest : List Token) :
    Ends (o :: rest) := by
  intro o' ho'
  cases ho'
  exact Or.inr ho

/-- The node of a sequence tells its statements. -/
theorem Grammar.yields_node {α : Type} {p : Parser (List (Tree α))} {w rest : List Token}
    {ts : List (Tree α)} :
    Yields (p >>= fun us => pure (Tree.node .sequence us)) w (Tree.node .sequence ts) rest ↔
      Yields p w ts rest := by
  rw [yields_bind]
  constructor
  · rintro ⟨us, mid, hread, hpure⟩
    obtain ⟨heq, rfl⟩ := yields_pure.1 hpure
    cases heq
    exact hread
  · exact fun hread => ⟨ts, rest, hread, yields_pure.2 ⟨rfl, rfl⟩⟩

/-! ## Accepted texts -/

namespace Entry

open Token Correspondence

variable {α : Type} [Literal α]

/-- The text has no end mark, and with one after it is read as the tree. -/
structure Accepts (entry : Entry) (s : String) (t : Tree α) : Prop where
  noEnd : '$' ∉ s.toList
  parse : entry.parse (s ++ "$") = .ok t

variable {entry : Entry} {s a b : String} {t : Tree α} {ts as bs : List (Tree α)}
variable {rest rest' : List Token} {more : List (Tree α)}

/-- It is enough to read the tokens of the text in front of any end mark. -/
theorem accepts_of_yields (hs : '$' ∉ s.toList)
    (h : ∀ o : Token, o.kind = .punct .dollar →
      Yields entry.production (significantFrom 0 s.toList ++ [o]) t [o]) : entry.Accepts s t := by
  obtain ⟨o, ho, htokens⟩ := significantFrom_dollar 0 s
  refine ⟨hs, parse_eq_ok.2 ⟨o, [], ?_, ho⟩⟩
  rw [significant_eq, htokens]
  exact h o ho

namespace Accepts

/-- Wherever the text stands, it is read before an end mark. -/
theorem yields_dollar (h : entry.Accepts s t) (start : Nat) : ∃ o : Token, o.kind = .punct .dollar ∧
    Yields entry.production (significantFrom start s.toList ++ [o]) t [o] := by
  obtain ⟨o, rest, ⟨fs, hread⟩, ho⟩ := parse_eq_ok.1 h.parse
  obtain ⟨o', ho', htokens⟩ := significantFrom_dollar start s
  -- the tokens at the new place differ from those of the text in their places only
  have hlists : (spaced (significantFrom 0 (s ++ "$").toList)
      (significantFrom start (s ++ "$").toList)).Lists _ _ :=
    ⟨List.suffix_refl _, List.suffix_refl _, profile_significantFrom_eq _ _ _⟩
  have hrun := related_production (α := α) entry hlists
  rw [← significant_eq, hread, htokens] at hrun
  cases hout : (entry.production : Parser (Tree α)) (significantFrom start s.toList ++ [o']) with
  | mk result rest' fs' =>
    rw [hout] at hrun
    cases hrun with
    | ok heq hrest _ =>
      subst heq
      rcases hrest.cases with ⟨hnil, -⟩ | ⟨_, us, o'', us', heq, rfl, hkind, -⟩
      · cases hnil
      · cases heq
        have hlast := (noDollar_significantFrom h.noEnd start).eq_of_suffix hrest.2.1
          (hkind ▸ ho)
        exact ⟨o', ho', fs', by rw [hout, hlast]⟩

/-- Wherever an accepted text stands, its tokens are a sentence and are read in front of some end
mark. -/
theorem exists_sentence (h : entry.Accepts s t) (start : Nat) :
    entry.Sentence (significantFrom start s.toList) t ∧ ∃ o : Token, o.kind = .punct .dollar ∧
      Yields entry.production (significantFrom start s.toList ++ [o]) t [o] := by
  obtain ⟨o, ho, hread⟩ := h.yields_dollar start
  obtain ⟨w, hw, hsentence⟩ := reads_production entry hread
  rw [← List.append_cancel_right hw] at hsentence
  exact ⟨hsentence, o, ho, hread⟩

/-- An expression is read as its tree wherever nothing goes on with it. -/
theorem yields_expression (h : expression.Accepts s t) (start : Nat) (hrest : Stops rest) :
    Yields Grammar.expression (significantFrom start s.toList ++ rest) t rest := by
  obtain ⟨hphrase, o, ho, hread⟩ := h.exists_sentence start
  obtain ⟨t', ht'⟩ := Phrase.Expression.yields hphrase
  obtain ⟨rfl, -⟩ := hread.unique (ht' (stops_of_kind [] ho (by decide)))
  exact ht' hrest

/-- Statements are a phrase, and are read as their trees in front of others. -/
theorem sequence (h : statements.Accepts s (.node .sequence ts)) (start : Nat) :
    Phrase.Sequence (significantFrom start s.toList) ts ∧
      ∀ {rest rest' : List Token} {more : List (Tree α)}, NoElse rest →
        Yields (many statement) rest more rest' →
        Yields (many statement) (significantFrom start s.toList ++ rest) (ts ++ more) rest' := by
  obtain ⟨⟨_, hphrase, heq⟩, o, ho, hread⟩ := h.exists_sentence start
  cases heq
  obtain ⟨ts', hts'⟩ := hphrase.yields
  have hends := ends_dollar ho []
  obtain ⟨hsame, -⟩ := (yields_node.1 hread).unique
    (hts' hends.noElse (Phrase.yields_statements_nil hends))
  rw [List.append_nil] at hsame
  subst hsame
  exact ⟨hphrase, hts'⟩

/-- Definitions are a phrase, and are read as their trees in front of others. -/
theorem definitions (h : program.Accepts s (.node .sequence ts)) (start : Nat) :
    Phrase.Program (significantFrom start s.toList) ts ∧
      ∀ {rest rest' : List Token} {more : List (Tree α)},
        Yields (many definition) rest more rest' →
        Yields (many definition) (significantFrom start s.toList ++ rest) (ts ++ more) rest' := by
  obtain ⟨⟨_, hphrase, heq⟩, o, ho, hread⟩ := h.exists_sentence start
  cases heq
  obtain ⟨ts', hts'⟩ := hphrase.yields
  obtain ⟨hsame, -⟩ := (yields_node.1 hread).unique
    (hts' (Phrase.yields_definitions_nil (ends_dollar ho [])))
  rw [List.append_nil] at hsame
  subst hsame
  exact ⟨hphrase, hts'⟩

theorem noEnd_append (ha : '$' ∉ a.toList) (hb : '$' ∉ b.toList) : '$' ∉ (a ++ b).toList := by
  rw [String.toList_append, List.mem_append]
  exact not_or.2 ⟨ha, hb⟩

/-- Statements next to one another are statements. -/
theorem append_statements (ha : statements.Accepts a (.node .sequence as))
    (hb : statements.Accepts b (.node .sequence bs)) :
    statements.Accepts (a ++ b) (.node .sequence (as ++ bs)) := by
  have hsplits : Splits a b.toList :=
    splits_of (Or.inr fun start => (ha.sequence start).1.endsInMark)
  refine accepts_of_yields (noEnd_append ha.noEnd hb.noEnd) fun o ho => yields_node.2 ?_
  have hends := ends_dollar ho []
  obtain ⟨hphrase, hread⟩ := hb.sequence (0 + a.utf8ByteSize)
  have hmany := (ha.sequence 0).2 (hphrase.noElse hends.noElse)
    (hread hends.noElse (Phrase.yields_statements_nil hends))
  rw [List.append_nil] at hmany
  rwa [String.toList_append, hsplits, List.append_assoc]

/-- Definitions next to one another are a program. -/
theorem append_definitions (ha : program.Accepts a (.node .sequence as))
    (hb : program.Accepts b (.node .sequence bs)) :
    program.Accepts (a ++ b) (.node .sequence (as ++ bs)) := by
  have hsplits : Splits a b.toList :=
    splits_of (Or.inr fun start => (ha.definitions start).1.endsInMark)
  refine accepts_of_yields (noEnd_append ha.noEnd hb.noEnd) fun o ho => yields_node.2 ?_
  have hmany := (ha.definitions 0).2 ((hb.definitions (0 + a.utf8ByteSize)).2
    (Phrase.yields_definitions_nil (ends_dollar ho [])))
  rw [List.append_nil] at hmany
  rwa [String.toList_append, hsplits, List.append_assoc]

end Accepts

end Entry

end Fluxion

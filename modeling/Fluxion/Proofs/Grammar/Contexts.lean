import Fluxion.Proofs.Grammar.Placement
import Fluxion.Proofs.Tree.ReadBack

/-!
# An expression means the same everywhere

An expression is read up to a mark that goes on with no expression, and that is what comes after it
wherever the grammar allows one: a closing parenthesis, a comma, a semicolon, an opening brace or
the end mark. So a text that is an expression by itself stands for the same tree in parentheses, as
the value of an assignment, as an argument, and in statements (`Entry.Accepts.everywhere`); and a
statement means the same next to others, and in the body of a function.
-/

namespace Fluxion

open Fluxion.Parser Fluxion.Grammar

/-! ## Pieces -/

section Pieces

variable {s p q : String} {ps : List String}

/-- A mark of one character can stand in front of anything without a blank. -/
theorem apart_mark (hp : IsMark p) (h : Apart ps) : Apart (p :: ps) := ⟨splits_mark hp _, h⟩

/-- The same by the character of the mark. -/
theorem apart_char (mark : Punct) (hp : p.toList = [mark.char]) (h : Apart ps) : Apart (p :: ps) :=
  apart_mark (isMark_char mark hp) h

/-- White space at the end keeps a text from what follows. -/
theorem apart_padded (hp : Padded s p) (h : Apart ps) : Apart (p :: ps) := ⟨hp.splits _, h⟩

/-- A word does not run into a mark. -/
theorem apart_word (hp : IsWord p.toList) (hq : IsMark q) (h : Apart (q :: ps)) :
    Apart (p :: q :: ps) :=
  ⟨splits_word hp (hq.detached _), h⟩

/-- A word does not run into white space. -/
theorem apart_word_padded (hp : IsWord p.toList) (hq : Padded s q) (h : Apart (q :: ps)) :
    Apart (p :: q :: ps) := by
  refine ⟨splits_word hp fun c hc => ?_, h⟩
  obtain ⟨b, b', hb, -, rfl⟩ := hq
  rw [List.flatMap_cons, String.toList_append, String.toList_append, List.append_assoc,
    List.append_assoc] at hc
  have hblank := hb.head? _ c hc
  refine ⟨not_isAlphanum_of_blank hblank, ?_⟩
  rintro rfl
  exact absurd hblank (by decide)

theorem IsBlank.noEnd {b : String} (hb : IsBlank b) : '$' ∉ b.toList :=
  fun h => absurd (hb.2 _ h) (by decide)

/-- White space around a text brings in no end mark. -/
theorem Padded.noEnd (hp : Padded s p) (hs : '$' ∉ s.toList) : '$' ∉ p.toList := by
  obtain ⟨b, b', hb, hb', rfl⟩ := hp
  simp only [String.toList_append, List.mem_append, not_or]
  exact ⟨⟨hb.noEnd, hs⟩, hb'.noEnd⟩

theorem IsName.noEnd {x : String} (h : IsName x) : '$' ∉ x.toList := by
  obtain ⟨c, more, hx, hc, hmore⟩ := h.1
  rw [hx, List.mem_cons, not_or]
  refine ⟨?_, fun hmem => absurd (hmore _ hmem) (by decide)⟩
  rintro rfl
  exact absurd hc (by decide)

end Pieces

/-- No function of one argument is called with two. -/
theorem Grammar.callOperator_pair {α : Type} (g : String) (t u : Tree α) :
    callOperator g [t, u] = .call g := by
  unfold callOperator
  cases Func.ofName? g <;> rfl

namespace Phrase

variable {α : Type} [Literal α]

/-- A program with one tree is one definition. -/
theorem Program.definition {w : List Token} {t : Tree α} (h : Program w [t]) : Definition w t := by
  cases h with
  | cons h hmore =>
    cases hmore
    rwa [List.append_nil]

/-- A definition with an empty body has its braces at the end, and the rest is its header. -/
theorem Definition.exists_header {v : List Token} {l r : Token} {f : String} {ts : List (Tree α)}
    (h : Definition (v ++ [l, r]) (.node (.define f) (ts ++ [.node .sequence []]))) :
    ∃ kw name w names, v = kw :: name :: w ∧ kw.kind = .keyword .functionKw ∧ name.IsIdentifier ∧
      name.text = f ∧ Parameters w names ∧ names.map (fun n => .var n.text) = ts := by
  generalize htokens : v ++ [l, r] = v' at h
  generalize htree : Tree.node (.define f) (ts ++ [.node .sequence []]) = t at h
  cases h with
  | @mk kw name w w' names body hkw hname hparameters hbody =>
    simp only [Tree.node.injEq, Operator.define.injEq] at htree
    obtain ⟨rfl, htrees⟩ := htree
    obtain ⟨hnames, hbodies⟩ := List.append_inj' htrees rfl
    cases hbodies
    cases hbody with
    | @mk l' r' w'' _ hl hsequence hr =>
      cases hsequence
      have hsplit : v ++ [l, r] = (kw :: name :: w) ++ [l', r'] := by simpa using htokens
      exact ⟨kw, name, w, names, (List.append_inj' hsplit rfl).1, hkw, hname, rfl, hparameters,
        hnames.symm⟩

end Phrase

namespace Entry

open Token

variable {α : Type} [Literal α] {entry : Entry} {s text a b : String} {t u : Tree α}
variable {as bs : List (Tree α)}

/-- A text in pieces is accepted if their tokens are read before an end mark. -/
theorem accepts_of_pieces (ps : List String) (htext : text.toList = ps.flatMap String.toList)
    (hnoEnd : ∀ p ∈ ps, '$' ∉ p.toList) (hapart : Apart ps)
    (h : ∀ {w : List Token} {o : Token}, Spelled ps w → o.kind = .punct .dollar →
      Yields entry.production (w ++ [o]) t [o]) : entry.Accepts text t := by
  refine accepts_of_yields ?_ fun o ho => ?_
  · rw [htext]
    intro hmem
    obtain ⟨p, hp, hmem⟩ := List.mem_flatMap.1 hmem
    exact hnoEnd p hp hmem
  · rw [htext]
    exact h (hapart.spelled 0) ho

/-! ## Expressions in expressions -/

/-- What can be read as a part can be read as an expression. -/
theorem yields_expression_of_part {w rest : List Token}
    (h : Yields (partOf Grammar.expression) w t rest) (hrest : Stops rest) :
    Yields Grammar.expression w t rest :=
  yields_reader_of_le (l := 0) (k := 5) (by decide) h hrest

/-- No expression goes on with the end mark. -/
theorem stops_dollar {o : Token} (ho : o.kind = .punct .dollar) : Stops [o] :=
  stops_of_kind [] ho (by decide)

namespace Accepts

/-- Parentheses do not change what an expression stands for. -/
theorem parenthesized {p : String} (h : expression.Accepts s t) (hp : Padded s p) :
    expression.Accepts ("(" ++ p ++ ")") t := by
  refine accepts_of_pieces ["(", p, ")"] ?_ ?_ ?_ ?_
  · simp
  · simpa using hp.noEnd h.noEnd
  · exact apart_char .openParen rfl <| apart_padded hp <| apart_char .closeParen rfl trivial
  · intro w o hw ho
    obtain ⟨l, w, rfl, hl, hw₁⟩ := hw.punct .openParen rfl
    obtain ⟨start, w, rfl, hw₂⟩ := hw₁.padded hp
    obtain ⟨r, w, rfl, hr, rfl⟩ := hw₂.punct .closeParen rfl
    have hread := h.yields_expression start (stops_of_kind [o] hr (by decide))
    have hpart := yields_partOf_parenthesized hl hread hr
    exact yields_expression_of_part (by simpa using hpart) (stops_dollar ho)

/-- As the value of an assignment an expression stands for the same tree. -/
theorem assigned {y p : String} (h : expression.Accepts s t) (hy : IsName y) (hp : Padded s p) :
    expression.Accepts (y ++ " =" ++ p) (.node .assign [.var y, t]) := by
  refine accepts_of_pieces [y, " ", "=", p] ?_ ?_ ?_ ?_
  · simp
  · simpa using ⟨hy.noEnd, hp.noEnd h.noEnd⟩
  · exact apart_word hy.1 isMark_blank <| apart_mark isMark_blank <| apart_char .equals rfl <|
      apart_padded hp trivial
  · intro w o hw ho
    obtain ⟨name, w, rfl, hname, rfl, hw₁⟩ := hw.name hy
    obtain ⟨eq, w, rfl, heq, hw₂⟩ := hw₁.blank.punct .equals rfl
    obtain ⟨start, w, rfl, rfl⟩ := hw₂.padded hp
    have hread := h.yields_expression start (stops_dollar ho)
    have hpart := yields_partOf_assignment hname heq hread
    exact yields_expression_of_part (by simpa using hpart) (stops_dollar ho)

/-- As each of two arguments an expression stands for the same tree. -/
theorem called {g p p' : String} (h : expression.Accepts s t) (hg : IsName g) (hp : Padded s p)
    (hp' : Padded s p') :
    expression.Accepts (g ++ "(" ++ p ++ "," ++ p' ++ ")") (.node (.call g) [t, t]) := by
  refine accepts_of_pieces [g, "(", p, ",", p', ")"] ?_ ?_ ?_ ?_
  · simp
  · simpa using ⟨hg.noEnd, hp.noEnd h.noEnd, hp'.noEnd h.noEnd⟩
  · exact apart_word hg.1 (isMark_char .openParen rfl) <| apart_char .openParen rfl <|
      apart_padded hp <| apart_char .comma rfl <| apart_padded hp' <|
      apart_char .closeParen rfl trivial
  · intro w o hw ho
    -- the tokens of the whole text, piece by piece
    obtain ⟨name, w, rfl, hname, rfl, hw₁⟩ := hw.name hg
    obtain ⟨l, w, rfl, hl, hw₂⟩ := hw₁.punct .openParen rfl
    obtain ⟨start, w, rfl, hw₃⟩ := hw₂.padded hp
    obtain ⟨comma, w, rfl, hcomma, hw₄⟩ := hw₃.punct .comma rfl
    obtain ⟨start', w, rfl, hw₅⟩ := hw₄.padded hp'
    obtain ⟨r, w, rfl, hr, rfl⟩ := hw₅.punct .closeParen rfl
    have hsecond := h.yields_expression start' (stops_of_kind [o] hr (by decide))
    have hfirst := h.yields_expression start
      (stops_of_kind (significantFrom start' s.toList ++ r :: [o]) hcomma (by decide))
    -- the second argument is read up to the closing mark
    have hmore : Yields (many (afterComma Grammar.expression))
        (comma :: (significantFrom start' s.toList ++ r :: [o])) [t] (r :: [o]) := by
      refine yields_many_of_yields (yields_afterComma hcomma hsecond) ?_
        (yields_many_of_refuses (refuses_afterComma (by simp [hr])))
      simp only [List.length_cons, List.length_append]
      omega
    have hpart := yields_partOf_call hname hl (yields_separated_cons hfirst hmore) hr
    rw [callOperator_pair] at hpart
    exact yields_expression_of_part (by simpa using hpart) (stops_dollar ho)

end Accepts

/-! ## Expressions in statements -/

/-- The statements that are made of an expression and no other, with the trees they stand for. -/
inductive StatementWith (s : String) (t : Tree α) : String → Tree α → Prop
  | expression {p : String} : Padded s p → StatementWith s t (p ++ ";") t
  | ifThen {p : String} : Padded s p →
      StatementWith s t ("if (" ++ p ++ ") { }") (.node .ifElse [t, .node .sequence []])
  | whileLoop {p : String} : Padded s p →
      StatementWith s t ("while" ++ p ++ "{ }") (.node .whileLoop [t, .node .sequence []])
  | forLoop {p p' p'' : String} : Padded s p → Padded s p' → Padded s p'' →
      StatementWith s t ("for (" ++ p ++ ";" ++ p' ++ ";" ++ p'' ++ ") { }")
        (.node .forLoop [t, t, t, .node .sequence []])
  | giveBack {p : String} : Padded s p →
      StatementWith s t ("return (" ++ p ++ ") ;") (.node .giveBack [t])

/-- A statement in pieces is accepted if its tokens are read where no `else` follows. -/
theorem accepts_statement (ps : List String) (htext : text.toList = ps.flatMap String.toList)
    (hnoEnd : ∀ p ∈ ps, '$' ∉ p.toList) (hapart : Apart ps)
    (h : ∀ {w rest : List Token}, Spelled ps w → NoElse rest →
      Yields statement (w ++ rest) u rest) : statements.Accepts text (.node .sequence [u]) := by
  refine accepts_of_pieces ps htext hnoEnd hapart fun hw ho => yields_node.2 ?_
  have hends := ends_dollar ho []
  have hread := h hw hends.noElse
  refine yields_many_of_yields hread ?_ (Phrase.yields_statements_nil hends)
  obtain ⟨v, hv, hphrase⟩ := reads_statement hread
  obtain ⟨o', v, rfl, -⟩ := hphrase.head
  rw [hv]
  simp only [List.cons_append, List.length_cons, List.length_append]
  omega

/-- Nothing in braces is an empty sequence. -/
theorem yields_block_nil {w : List Token} (h : Spelled ["\x7b", " ", "\x7d"] w)
    (rest : List Token) :
    Yields block (w ++ rest) (.node .sequence [] : Tree α) rest := by
  obtain ⟨l, w, rfl, hl, hw⟩ := h.punct .openCurly rfl
  obtain ⟨r, w, rfl, hr, rfl⟩ := hw.blank.punct .closeCurly rfl
  refine yields_blockOf_of hl (Phrase.yields_statements_nil fun o ho => ?_) hr
  cases ho
  exact Or.inl hr

theorem spelled_block_head {w : List Token} (h : Spelled ["\x7b", " ", "\x7d"] w) :
    ∃ o v, w = o :: v ∧ o.kind = .punct .openCurly := by
  obtain ⟨l, w, rfl, hl, -⟩ := h.punct .openCurly rfl
  exact ⟨l, w, rfl, hl⟩

namespace Accepts

/-- In parentheses an accepted expression is read as a condition, wherever its tokens have come to
stand. -/
theorem yields_condition {p : String} {w : List Token} (h : expression.Accepts s t)
    (hp : Padded s p) (hw : Spelled ("(" :: p :: ")" :: ps) w) :
    ∃ v w', w = v ++ w' ∧ Spelled ps w' ∧ ∀ rest, Yields condition (v ++ rest) t rest := by
  obtain ⟨l, w, rfl, hl, hw₁⟩ := hw.punct .openParen rfl
  obtain ⟨start, w, rfl, hw₂⟩ := hw₁.padded hp
  obtain ⟨r, w, rfl, hr, hw₃⟩ := hw₂.punct .closeParen rfl
  refine ⟨l :: (significantFrom start s.toList ++ [r]), w, by simp, hw₃, fun rest => ?_⟩
  have hread := h.yields_expression start (stops_of_kind rest hr (by decide))
  simpa [condition] using yields_parenthesizedOf_of hl hread hr

/-- The pieces of an empty block do not run into one another. -/
theorem apart_block : Apart ["\x7b", " ", "\x7d"] :=
  apart_char .openCurly rfl <| apart_mark isMark_blank <| apart_char .closeCurly rfl trivial

/-- With a semicolon an expression is a statement. -/
theorem asStatement {p : String} (h : expression.Accepts s t) (hp : Padded s p) :
    statements.Accepts (p ++ ";") (.node .sequence [t]) := by
  refine accepts_statement [p, ";"] ?_ ?_ ?_ ?_
  · simp
  · simpa using hp.noEnd h.noEnd
  · exact apart_padded hp <| apart_char .semicolon rfl trivial
  · intro w rest hw _
    obtain ⟨start, w, rfl, hw₁⟩ := hw.padded hp
    obtain ⟨o, w, rfl, ho, rfl⟩ := hw₁.punct .semicolon rfl
    have hread := h.yields_expression start (stops_of_kind rest ho (by decide))
    rw [statement_eq, List.append_assoc]
    refine yields_statementOf_expression ?_ hread ho
    obtain ⟨o', v, hv, ho'⟩ := Phrase.Expression.head (h.exists_sentence start).1
    rw [hv]
    rintro o'' ⟨⟩
    exact ho'

/-- The condition of an alternative stands in parentheses. -/
theorem asCondition {p : String} (h : expression.Accepts s t) (hp : Padded s p) :
    statements.Accepts ("if (" ++ p ++ ") { }")
      (.node .sequence [.node .ifElse [t, .node .sequence []]]) := by
  refine accepts_statement ["if", " ", "(", p, ")", " ", "\x7b", " ", "\x7d"] ?_ ?_ ?_ ?_
  · simp
  · simpa using hp.noEnd h.noEnd
  · exact apart_word Keyword.ifKw.isWord isMark_blank <| apart_mark isMark_blank <|
      apart_char .openParen rfl <| apart_padded hp <| apart_char .closeParen rfl <|
      apart_mark isMark_blank apart_block
  · intro w rest hw hrest
    obtain ⟨kw, w, rfl, hkw, hw₁⟩ := hw.keyword .ifKw rfl
    obtain ⟨v, w, rfl, hw₂, hcondition⟩ := h.yields_condition hp hw₁.blank
    have hwhole := yields_statementOf_if hkw (hcondition _) (yields_block_nil hw₂.blank rest)
      (yields_optional_none.2 ⟨refuses_otherwise hrest, rfl⟩)
    rw [statement_eq, List.cons_append, List.append_assoc]
    exact hwhole

/-- The condition of a loop ends where its block begins. -/
theorem asLoopCondition {p : String} (h : expression.Accepts s t) (hp : Padded s p) :
    statements.Accepts ("while" ++ p ++ "{ }")
      (.node .sequence [.node .whileLoop [t, .node .sequence []]]) := by
  refine accepts_statement ["while", p, "\x7b", " ", "\x7d"] ?_ ?_ ?_ ?_
  · simp
  · simpa using hp.noEnd h.noEnd
  · exact apart_word_padded Keyword.whileKw.isWord hp <| apart_padded hp apart_block
  · intro w rest hw _
    obtain ⟨kw, w, rfl, hkw, hw₁⟩ := hw.keyword .whileKw rfl
    obtain ⟨start, w, rfl, hw₂⟩ := hw₁.padded hp
    have hstops : Stops (w ++ rest) := by
      obtain ⟨o, v, rfl, ho⟩ := spelled_block_head hw₂
      exact stops_of_kind _ ho (by decide)
    have hread := h.yields_expression start hstops
    rw [statement_eq, List.cons_append, List.append_assoc]
    exact yields_statementOf_while hkw hread (yields_block_nil hw₂ rest)

/-- The head of a loop with a step takes an expression three times. -/
theorem asSteps {p p' p'' : String} (h : expression.Accepts s t) (hp : Padded s p)
    (hp' : Padded s p') (hp'' : Padded s p'') :
    statements.Accepts ("for (" ++ p ++ ";" ++ p' ++ ";" ++ p'' ++ ") { }")
      (.node .sequence [.node .forLoop [t, t, t, .node .sequence []]]) := by
  refine accepts_statement
    ["for", " ", "(", p, ";", p', ";", p'', ")", " ", "\x7b", " ", "\x7d"] ?_ ?_ ?_ ?_
  · simp
  · simpa using ⟨hp.noEnd h.noEnd, hp'.noEnd h.noEnd, hp''.noEnd h.noEnd⟩
  · exact apart_word Keyword.forKw.isWord isMark_blank <| apart_mark isMark_blank <|
      apart_char .openParen rfl <| apart_padded hp <| apart_char .semicolon rfl <|
      apart_padded hp' <| apart_char .semicolon rfl <| apart_padded hp'' <|
      apart_char .closeParen rfl <| apart_mark isMark_blank apart_block
  · intro w rest hw _
    obtain ⟨kw, w, rfl, hkw, hw₁⟩ := hw.keyword .forKw rfl
    obtain ⟨l, w, rfl, hl, hw₂⟩ := hw₁.blank.punct .openParen rfl
    obtain ⟨k, w, rfl, hw₃⟩ := hw₂.padded hp
    obtain ⟨o, w, rfl, ho, hw₄⟩ := hw₃.punct .semicolon rfl
    obtain ⟨k', w, rfl, hw₅⟩ := hw₄.padded hp'
    obtain ⟨o', w, rfl, ho', hw₆⟩ := hw₅.punct .semicolon rfl
    obtain ⟨k'', w, rfl, hw₇⟩ := hw₆.padded hp''
    obtain ⟨r, w, rfl, hr, hw₈⟩ := hw₇.punct .closeParen rfl
    -- from the right, as what an expression stops at stands behind it
    have hstep := h.yields_expression k'' (stops_of_kind (w ++ rest) hr (by decide))
    have hcondition := h.yields_expression k' (stops_of_kind
      (significantFrom k'' s.toList ++ r :: (w ++ rest)) ho' (by decide))
    have hfirst := h.yields_expression k (stops_of_kind (significantFrom k' s.toList ++ o' ::
      (significantFrom k'' s.toList ++ r :: (w ++ rest))) ho (by decide))
    have hwhole := yields_statementOf_for hkw hl hfirst ho hcondition ho' hstep hr
      (yields_block_nil hw₈.blank rest)
    rw [statement_eq]
    simpa using hwhole

/-- The value that is returned stands in parentheses. -/
theorem asResult {p : String} (h : expression.Accepts s t) (hp : Padded s p) :
    statements.Accepts ("return (" ++ p ++ ") ;") (.node .sequence [.node .giveBack [t]]) := by
  refine accepts_statement ["return", " ", "(", p, ")", " ", ";"] ?_ ?_ ?_ ?_
  · simp
  · simpa using hp.noEnd h.noEnd
  · exact apart_word Keyword.returnKw.isWord isMark_blank <| apart_mark isMark_blank <|
      apart_char .openParen rfl <| apart_padded hp <| apart_char .closeParen rfl <|
      apart_mark isMark_blank <| apart_char .semicolon rfl trivial
  · intro w rest hw _
    obtain ⟨kw, w, rfl, hkw, hw₁⟩ := hw.keyword .returnKw rfl
    obtain ⟨v, w, rfl, hw₂, hcondition⟩ := h.yields_condition hp hw₁.blank
    obtain ⟨o, w, rfl, ho, rfl⟩ := hw₂.blank.punct .semicolon rfl
    rw [statement_eq, List.cons_append, List.append_assoc]
    exact yields_statementOf_return hkw (hcondition (o :: rest)) ho

/-- Each statement that is made of the expression alone is accepted, with the tree it stands for. -/
theorem statementWith (h : expression.Accepts s t) (hwith : StatementWith s t text u) :
    statements.Accepts text (.node .sequence [u]) := by
  cases hwith with
  | expression hp => exact h.asStatement hp
  | ifThen hp => exact h.asCondition hp
  | whileLoop hp => exact h.asLoopCondition hp
  | forLoop hp hp' hp'' => exact h.asSteps hp hp' hp''
  | giveBack hp => exact h.asResult hp

/-! ## Statements in functions -/

/-- Statements that are accepted by themselves are read between braces as well. -/
theorem yields_block {l r : Token} (h : statements.Accepts a (.node .sequence as)) (start : Nat)
    (hl : l.kind = .punct .openCurly) (hr : r.kind = .punct .closeCurly) (rest : List Token) :
    Yields block (l :: (significantFrom start a.toList ++ r :: rest))
      (.node .sequence as) rest := by
  have hends : Ends (r :: rest) := by
    rintro o ⟨⟩
    exact Or.inl hr
  have hbody := (h.sequence start).2 hends.noElse (Phrase.yields_statements_nil hends)
  rw [List.append_nil] at hbody
  exact yields_blockOf_of hl hbody hr

end Accepts

/-- With an empty body the text is the definition of a function. -/
def IsHeader (α : Type) [Literal α] (header f : String) (xs : List String) : Prop :=
  program.Accepts (α := α) (header ++ "{}")
    (.node .sequence [.node (.define f) (xs.map .var ++ [.node .sequence []])])

/-- The tokens of a header and a body in braces are those of the parts, with the places moved. -/
theorem significantFrom_braces (start : Nat) (header body : String) :
    ∃ l r : Token, ∃ start', l.kind = .punct .openCurly ∧ r.kind = .punct .closeCurly ∧
      significantFrom start (header ++ "\x7b" ++ body ++ "\x7d").toList =
        significantFrom start header.toList ++ l ::
          (significantFrom start' body.toList ++ [r]) := by
  have htext : (header ++ "\x7b" ++ body ++ "\x7d").toList =
      header.toList ++ Punct.openCurly.char :: (body.toList ++ Punct.closeCurly.char :: []) := by
    simp [Punct.char]
  rw [htext, significantFrom_append_mark, significantFrom_append_mark, significantFrom_nil]
  exact ⟨_, _, _, rfl, rfl, rfl⟩

/-- The tokens of a header are those of a definition up to its body. -/
theorem IsHeader.exists_tokens {header f : String} {xs : List String} (h : IsHeader α header f xs)
    (start : Nat) : ∃ kw name w names, significantFrom start header.toList = kw :: name :: w ∧
      kw.kind = .keyword .functionKw ∧ name.IsIdentifier ∧ name.text = f ∧
      Phrase.Parameters w names ∧ names.map (fun n => (.var n.text : Tree α)) = xs.map .var := by
  obtain ⟨l, r, start', -, -, htokens⟩ := significantFrom_braces start header ""
  have hempty : ("" : String).toList = [] := rfl
  rw [hempty, significantFrom_nil, List.nil_append, String.append_empty,
    String.append_assoc] at htokens
  have hphrase := (Accepts.definitions h start).1
  rw [show header ++ "{}" = header ++ ("\x7b" ++ "\x7d") from rfl, htokens] at hphrase
  exact hphrase.definition.exists_header

/-- A header with accepted statements in braces after it is the definition of a function with that
body. -/
theorem IsHeader.accepts {header f : String} {xs : List String} (h : IsHeader α header f xs)
    (ha : statements.Accepts a (.node .sequence as)) :
    program.Accepts (header ++ "\x7b" ++ a ++ "\x7d")
      (.node .sequence [.node (.define f) (xs.map .var ++ [.node .sequence as])]) := by
  have hnoEnd : '$' ∉ (header ++ "\x7b" ++ a ++ "\x7d").toList := by
    have hheader := Accepts.noEnd h
    have ha := ha.noEnd
    simp only [String.toList_append, List.mem_append, not_or] at hheader ⊢
    exact ⟨⟨⟨hheader.1, by decide⟩, ha⟩, by decide⟩
  refine accepts_of_yields hnoEnd fun o ho => yields_node.2 ?_
  obtain ⟨l, r, start, hl, hr, htokens⟩ := significantFrom_braces 0 header a
  -- the header was accepted with an empty body, so its tokens are those of a definition
  obtain ⟨kw, name, w, names, hheader, hkw, hname, rfl, hparameters, hnames⟩ := h.exists_tokens 0
  obtain ⟨l', r', v, rfl, hl', hr', hread⟩ := hparameters.yields
  have hdefinition := yields_definition_of hkw hname hl' (hread _) hr'
    (ha.yields_block start hl hr [o])
  rw [hnames] at hdefinition
  rw [htokens, hheader]
  refine yields_many_of_yields (show Yields _ _ _ [o] by simpa using hdefinition) ?_
    (Phrase.yields_definitions_nil (ends_dollar ho []))
  simp only [List.cons_append, List.length_cons, List.length_append]
  omega

/-! ## Everywhere -/

/-- An expression is read as the same tree in parentheses, as the value of an assignment and as
arguments, and in each kind of statement, next to any other statements and also in the body of a
function. -/
theorem Accepts.everywhere (h : expression.Accepts s t) :
    (∀ p, Padded s p → expression.Accepts ("(" ++ p ++ ")") t) ∧
    (∀ y p, IsName y → Padded s p →
      expression.Accepts (y ++ " =" ++ p) (.node .assign [.var y, t])) ∧
    (∀ g p p', IsName g → Padded s p → Padded s p' →
      expression.Accepts (g ++ "(" ++ p ++ "," ++ p' ++ ")") (.node (.call g) [t, t])) ∧
    ∀ text u, StatementWith s t text u → ∀ a as b bs,
      statements.Accepts a (.node .sequence as) → statements.Accepts b (.node .sequence bs) →
      statements.Accepts (a ++ text ++ b) (.node .sequence (as ++ u :: bs)) ∧
      ∀ header f xs c cs d ds, IsHeader α header f xs →
        program.Accepts c (.node .sequence cs) → program.Accepts d (.node .sequence ds) →
        program.Accepts (c ++ (header ++ "\x7b" ++ (a ++ text ++ b) ++ "\x7d") ++ d)
          (.node .sequence
            (cs ++ .node (.define f)
              (xs.map .var ++ [.node .sequence (as ++ u :: bs)]) :: ds)) := by
  refine ⟨fun p => h.parenthesized, fun y p => h.assigned, fun g p p' => h.called, ?_⟩
  intro text u hwith a as b bs ha hb
  have hbody : statements.Accepts (a ++ text ++ b) (.node .sequence (as ++ u :: bs)) := by
    have hall := (ha.append_statements (h.statementWith hwith)).append_statements hb
    rwa [List.append_assoc] at hall
  refine ⟨hbody, fun header f xs c cs d ds hheader hc hd => ?_⟩
  have hall := (hc.append_definitions (hheader.accepts hbody)).append_definitions hd
  rwa [List.append_assoc] at hall

/-- An expression that ends in an assignment, as the condition of a loop between other statements of
the one function of a program. -/
theorem Accepts.everywhere_assignment :
    expression.Accepts "y=a-f(x)"
      (.node .assign [.var "y", .node (.nary .sub) [.var "a", .node (.call "f") [.var "x"]]] :
        Tree Float) ∧
    Padded "y=a-f(x)" " y=a-f(x)\n" ∧
    program.Accepts ("" ++ ("function f(x)" ++ "\x7b" ++
        ("x;" ++ ("while" ++ " y=a-f(x)\n" ++ "{ }") ++ "return(x);") ++ "\x7d") ++ "")
      (.node .sequence [.node (.define "f") [.var "x", .node .sequence [.var "x",
        .node .whileLoop [.node .assign
          [.var "y", .node (.nary .sub) [.var "a", .node (.call "f") [.var "x"]]],
            .node .sequence []],
        .node .giveBack [.var "x"]]]] : Tree Float) := by
  have hexpression : expression.Accepts "y=a-f(x)"
      (.node .assign [.var "y", .node (.nary .sub) [.var "a", .node (.call "f") [.var "x"]]] :
        Tree Float) := ⟨by decide, by cbv⟩
  have hpadded : Padded "y=a-f(x)" " y=a-f(x)\n" :=
    ⟨" ", "\n", ⟨by decide, by simp [isBlankChar]⟩, ⟨by decide, by simp [isBlankChar]⟩, rfl⟩
  have hbefore : statements.Accepts "x;" (.node .sequence [.var "x"] : Tree Float) :=
    ⟨by decide, by cbv⟩
  have hafter : statements.Accepts "return(x);"
      (.node .sequence [.node .giveBack [.var "x"]] : Tree Float) := ⟨by decide, by cbv⟩
  have hheader : IsHeader Float "function f(x)" "f" ["x"] := ⟨by decide, by cbv⟩
  have hempty : program.Accepts "" (.node .sequence [] : Tree Float) := ⟨by decide, by cbv⟩
  obtain ⟨-, -, -, hstatement⟩ := hexpression.everywhere
  obtain ⟨-, hprogram⟩ := hstatement _ _ (.whileLoop hpadded) _ _ _ _ hbefore hafter
  exact ⟨hexpression, hpadded, hprogram _ _ _ _ _ _ _ hheader hempty hempty⟩

end Entry

end Fluxion

import Fluxion.Proofs.Grammar.Recursion

/-!
# Which alternative is taken

The alternatives of a production are tried in order. Whether one of them refuses is decided by the
next token or by the one after it, so the token lists on which a production takes a given
alternative can be told from their first two tokens. The laws below say what each production yields
on such a list, for any parser `q` that is called for what is nested. They are all that later proofs
need to know about the order of the alternatives.
-/

namespace Fluxion.Grammar

open Fluxion.Parser

variable {α : Type} {q : Parser (Tree α)} {ts mid rest : List Token} {t t' : Tree α} {name : Token}

/-! ## Operands with operators between them -/

/-- An operator and an operand after it. -/
def operation (expected : Expectation) (op? : Token → Option NaryOp) (operand : Parser (Tree α)) :
    Parser (NaryOp × Tree α) := do
  let op ← satisfy expected op?
  let t ← operand
  return (op, t)

section Chains

variable {expected : Expectation} {op? : Token → Option NaryOp} {operand : Parser (Tree α)}

theorem yields_operation {o : Token} {op : NaryOp} (ho : op? o = some op)
    (h : Yields operand ts t rest) :
    Yields (operation expected op? operand) (o :: ts) (op, t) rest := by
  refine yields_bind.2 ⟨op, ts, yields_satisfy.2 ⟨o, rfl, ho⟩, ?_⟩
  exact yields_bind.2 ⟨t, rest, h, yields_pure.2 ⟨rfl, rfl⟩⟩

/-- The next token decides whether there is an operator of the level. -/
theorem refuses_operation (h : ∀ o ∈ ts.head?, op? o = none) :
    Refuses (operation expected op? operand) ts :=
  refuses_bind_left (refuses_satisfy h)

/-- A first operand, and as many operators with operands as there are, are grouped to a tree. -/
theorem yields_chain {others : List (NaryOp × Tree α)} (h : Yields operand ts t mid)
    (h' : Yields (many (operation expected op? operand)) mid others rest) :
    Yields (chain expected op? operand) ts (grouped t others) rest := by
  refine yields_bind.2 ⟨t, mid, yields_attempt.2 h, ?_⟩
  exact yields_bind.2 ⟨others, rest, h', yields_pure.2 ⟨rfl, rfl⟩⟩

/-- Without a first operand there is no chain, whatever stands behind it. -/
theorem refuses_chain (h : Refuses operand ts) : Refuses (chain expected op? operand) ts :=
  refuses_bind_left (refuses_attempt h)

end Chains

/-! ## Items with commas between them -/

section Separated

variable {β : Type} {p : Parser β} {b : β} {bs : List β}

theorem yields_separated_nil (h : Refuses p ts) : Yields (separated (punct .comma) p) ts [] ts :=
  yields_bind.2 ⟨none, ts, yields_optional_none.2 ⟨h, rfl⟩, yields_pure.2 ⟨rfl, rfl⟩⟩

/-- A comma and an item after it. -/
def afterComma (p : Parser β) : Parser β := do
  let _ ← attempt (punct .comma)
  p

theorem yields_afterComma {o : Token} (ho : o.kind = .punct .comma) (h : Yields p ts b rest) :
    Yields (afterComma p) (o :: ts) b rest :=
  yields_bind.2 ⟨o, ts, yields_attempt.2 (yields_punct.2 ⟨rfl, ho⟩), h⟩

theorem refuses_afterComma (h : ∀ o ∈ ts.head?, o.kind ≠ .punct .comma) :
    Refuses (afterComma p) ts :=
  refuses_bind_left (refuses_attempt (refuses_punct h))

theorem yields_separated_cons (h : Yields p ts b mid)
    (h' : Yields (many (afterComma p)) mid bs rest) :
    Yields (separated (punct .comma) p) ts (b :: bs) rest := by
  refine yields_bind.2 ⟨some b, mid, yields_optional_some.2 h, ?_⟩
  exact yields_bind.2 ⟨bs, rest, h', yields_pure.2 ⟨rfl, rfl⟩⟩

end Separated

/-! ## Blocks -/

/-- The braces are read around as many statements as there are. -/
theorem yields_blockOf_of {l r : Token} {body : List (Tree α)} (hl : l.kind = .punct .openCurly)
    (hbody : Yields (many q) ts body (r :: rest)) (hr : r.kind = .punct .closeCurly) :
    Yields (blockOf q) (l :: ts) (.node .sequence body) rest := by
  refine yields_bind.2 ⟨l, ts, yields_attempt.2 (yields_punct.2 ⟨rfl, hl⟩), ?_⟩
  refine yields_bind.2 ⟨.node .sequence body, r :: rest, ?_, ?_⟩
  · exact yields_bind.2 ⟨body, _, hbody, yields_pure.2 ⟨rfl, rfl⟩⟩
  · refine yields_bind.2 ⟨r, rest, yields_attempt.2 (yields_punct.2 ⟨rfl, hr⟩), ?_⟩
    exact yields_pure.2 ⟨rfl, rfl⟩

/-- What is done if a condition does not hold. -/
def otherwise (q : Parser (Tree α)) : Parser (Tree α) := do
  let _ ← attempt (keyword .elseKw)
  blockOf q

theorem yields_otherwise {kw : Token} (hkw : kw.kind = .keyword .elseKw)
    (h : Yields (blockOf q) ts t rest) : Yields (otherwise q) (kw :: ts) t rest :=
  yields_bind.2 ⟨kw, ts, yields_attempt.2 (yields_keyword.2 ⟨rfl, hkw⟩), h⟩

/-- There is no second block if the next token is not the keyword for it. -/
theorem refuses_otherwise (h : ∀ o ∈ ts.head?, o.kind ≠ .keyword .elseKw) :
    Refuses (otherwise q) ts :=
  refuses_bind_left (refuses_attempt (refuses_keyword h))

/-- The semicolon is read, and the value is that of what stands before it. -/
theorem yields_closed {p : Parser (Tree α)} {o : Token} (h : Yields p ts t (o :: rest))
    (ho : o.kind = .punct .semicolon) : Yields (closed p) ts t rest := by
  refine yields_bind.2 ⟨t, _, h, ?_⟩
  refine yields_bind.2 ⟨o, rest, yields_attempt.2 (yields_punct.2 ⟨rfl, ho⟩), ?_⟩
  exact yields_pure.2 ⟨rfl, rfl⟩

/-! ## Parts -/

/-- The opening mark is what an expression in parentheses is told by. -/
theorem refuses_parenthesizedOf (h : ∀ o ∈ ts.head?, o.kind ≠ .punct .openParen) :
    Refuses (parenthesizedOf q) ts :=
  refuses_bind_left (refuses_attempt (refuses_punct h))

theorem refuses_assignmentOf (h : ∀ o ∈ ts.head?, o.kind ≠ .name) : Refuses (assignmentOf q) ts :=
  refuses_bind_left (refuses_attempt (refuses_identifier h))

/-- A name without `=` after it is no assignment. -/
theorem refuses_assignmentOf_name (hname : name.IsIdentifier)
    (h : ∀ o ∈ rest.head?, o.kind ≠ .punct .equals) : Refuses (assignmentOf q) (name :: rest) := by
  refine refuses_bind_right (yields_attempt.2 (yields_identifier.2 ⟨rfl, hname⟩)) ?_
  exact refuses_bind_left (refuses_attempt (refuses_punct h))

theorem refuses_callOf (h : ∀ o ∈ ts.head?, o.kind ≠ .name) : Refuses (callOf q) ts :=
  refuses_bind_left (refuses_attempt (refuses_identifier h))

/-- A name without `(` after it is no call. -/
theorem refuses_callOf_name (hname : name.IsIdentifier)
    (h : ∀ o ∈ rest.head?, o.kind ≠ .punct .openParen) : Refuses (callOf q) (name :: rest) := by
  refine refuses_bind_right (yields_attempt.2 (yields_identifier.2 ⟨rfl, hname⟩)) ?_
  exact refuses_bind_left (refuses_attempt (refuses_punct h))

/-- The tree is that of the expression, without a node for the parentheses. -/
theorem yields_parenthesizedOf_of {l r : Token} (hl : l.kind = .punct .openParen)
    (hq : Yields q ts t (r :: rest)) (hr : r.kind = .punct .closeParen) :
    Yields (parenthesizedOf q) (l :: ts) t rest := by
  refine yields_bind.2 ⟨l, ts, yields_attempt.2 (yields_punct.2 ⟨rfl, hl⟩), ?_⟩
  refine yields_bind.2 ⟨t, _, hq, ?_⟩
  refine yields_bind.2 ⟨r, rest, yields_attempt.2 (yields_punct.2 ⟨rfl, hr⟩), ?_⟩
  exact yields_pure.2 ⟨rfl, rfl⟩

variable [Literal α]

/-- What an operand of a power can start with. -/
def StartsPart (o : Token) : Prop :=
  o.kind = .punct .openParen ∨ o.kind = .name ∨ o.isNumber = true ∨ o.kind = .punct .minus

/-- Where nothing can start an operand, each alternative refuses in turn. -/
theorem refuses_partOf (h : ∀ o ∈ ts.head?, ¬ StartsPart o) : Refuses (partOf q) ts := by
  have hname : ∀ o ∈ ts.head?, o.kind ≠ .name := fun o ho hk => h o ho (Or.inr (Or.inl hk))
  refine refuses_orElse (refuses_parenthesizedOf fun o ho hk => h o ho (Or.inl hk)) ?_
  refine refuses_orElse (refuses_assignmentOf hname) ?_
  refine refuses_orElse (refuses_constant ?_ ?_) ?_
  · intro o ho hk
    exact h o ho (Or.inr (Or.inr (Or.inr hk)))
  · intro o ho
    rw [← Bool.not_eq_true]
    exact fun hn => h o ho (Or.inr (Or.inr (Or.inl hn)))
  refine refuses_orElse (refuses_callOf hname) ?_
  refine refuses_orElse ?_ refuses_refuse
  exact refuses_bind_left (refuses_identifier hname)

/-- Parentheses are the first alternative that is tried. -/
theorem yields_partOf_parenthesized {l r : Token} (hl : l.kind = .punct .openParen)
    (hq : Yields q ts t (r :: rest)) (hr : r.kind = .punct .closeParen) :
    Yields (partOf q) (l :: ts) t rest :=
  yields_orElse.2 (Or.inl (yields_parenthesizedOf_of hl hq hr))

theorem name_not_openParen (hname : name.IsIdentifier) :
    ∀ o ∈ (name :: ts).head?, o.kind ≠ .punct .openParen := by
  intro o ho hk
  cases ho
  rw [hname.1] at hk
  exact nomatch hk

/-- A name with an equals sign behind it is an assignment, as that is tried before a call or a name.
-/
theorem yields_partOf_assignment {eq : Token} (hname : name.IsIdentifier)
    (heq : eq.kind = .punct .equals) (hq : Yields q ts t rest) :
    Yields (partOf q) (name :: eq :: ts) (.node .assign [.var name.text, t]) rest := by
  refine yields_orElse.2 (Or.inr ⟨refuses_parenthesizedOf (name_not_openParen hname), ?_⟩)
  refine yields_orElse.2 (Or.inl ?_)
  refine yields_bind.2 ⟨name, _, yields_attempt.2 (yields_identifier.2 ⟨rfl, hname⟩), ?_⟩
  refine yields_bind.2 ⟨eq, ts, yields_attempt.2 (yields_punct.2 ⟨rfl, heq⟩), ?_⟩
  exact yields_bind.2 ⟨t, rest, hq, yields_pure.2 ⟨rfl, rfl⟩⟩

/-- A number starts with digits or a minus sign. -/
theorem number_head {w : List Token} {a : α} (h : Phrase.Number w a) :
    ∃ o v, w = o :: v ∧ (o.isNumber = true ∨ o.kind = .punct .minus) := by
  cases h with
  | unsigned ho => exact ⟨_, _, rfl, Or.inl ho⟩
  | negative hsign => exact ⟨_, _, rfl, Or.inr hsign⟩

/-- Neither parentheses nor an assignment start like a number or a minus sign. -/
theorem yields_partOf_number {w : List Token} {a : α} (h : Phrase.Number w a) :
    Yields (partOf q) (w ++ rest) (.num a) rest := by
  obtain ⟨o, v, rfl, ho⟩ := number_head h
  have hkind : o.kind ≠ .punct .openParen ∧ o.kind ≠ .name := by
    rcases ho with ho | ho
    · constructor <;> intro hk <;> simp [Token.isNumber, hk] at ho
    · rw [ho]
      simp
  refine yields_orElse.2 (Or.inr ⟨refuses_parenthesizedOf (by simpa using hkind.1), ?_⟩)
  refine yields_orElse.2 (Or.inr ⟨refuses_assignmentOf (by simpa using hkind.2), ?_⟩)
  exact yields_orElse.2 (Or.inl (yields_constant.2 ⟨_, a, rfl, h, rfl⟩))

/-- A name that no `=` follows is not read before calls are tried. -/
theorem yields_partOf_of_name (hname : name.IsIdentifier)
    (hrest : ∀ o ∈ rest.head?, o.kind ≠ .punct .equals)
    (h : Yields (orElse (callOf q) (orElse nameLeaf (refuse .expression))) (name :: rest) t mid) :
    Yields (partOf q) (name :: rest) t mid := by
  refine yields_orElse.2 (Or.inr ⟨refuses_parenthesizedOf (name_not_openParen hname), ?_⟩)
  refine yields_orElse.2 (Or.inr ⟨refuses_assignmentOf_name hname hrest, ?_⟩)
  refine yields_orElse.2 (Or.inr ⟨refuses_constant ?_ ?_, h⟩)
  · simp [hname.1]
  · simp [Token.isNumber, hname.1]

/-- A name with parentheses behind it is a call, as that is tried before a name alone. -/
theorem yields_partOf_call {l r : Token} {arguments : List (Tree α)} (hname : name.IsIdentifier)
    (hl : l.kind = .punct .openParen)
    (harguments : Yields (separated (punct .comma) q) ts arguments (r :: rest))
    (hr : r.kind = .punct .closeParen) :
    Yields (partOf q) (name :: l :: ts)
      (.node (callOperator name.text arguments) arguments) rest := by
  refine yields_partOf_of_name hname (by simp [hl]) (yields_orElse.2 (Or.inl ?_))
  refine yields_bind.2 ⟨name, _, yields_attempt.2 (yields_identifier.2 ⟨rfl, hname⟩), ?_⟩
  refine yields_bind.2 ⟨l, ts, yields_attempt.2 (yields_punct.2 ⟨rfl, hl⟩), ?_⟩
  refine yields_bind.2 ⟨arguments, _, harguments, ?_⟩
  refine yields_bind.2 ⟨r, rest, yields_attempt.2 (yields_punct.2 ⟨rfl, hr⟩), ?_⟩
  exact yields_pure.2 ⟨rfl, rfl⟩

/-- A name is a leaf if what follows makes it neither an assignment nor a call. -/
theorem yields_partOf_name (hname : name.IsIdentifier)
    (hrest : ∀ o ∈ rest.head?, o.kind ≠ .punct .equals ∧ o.kind ≠ .punct .openParen) :
    Yields (partOf q) (name :: rest) (.var name.text) rest := by
  refine yields_partOf_of_name hname (fun o ho => (hrest o ho).1) ?_
  refine yields_orElse.2 (Or.inr ⟨refuses_callOf_name hname fun o ho => (hrest o ho).2, ?_⟩)
  refine yields_orElse.2 (Or.inl ?_)
  exact yields_bind.2 ⟨name, rest, yields_identifier.2 ⟨rfl, hname⟩, yields_pure.2 ⟨rfl, rfl⟩⟩

/-! ## Powers and comparisons -/

/-- A part is a power of its own if no exponent follows. -/
theorem yields_powerOf_part (h : Yields (partOf q) ts t rest)
    (hrest : ∀ o ∈ rest.head?, o.kind ≠ .punct .caret) : Yields (powerOf q) ts t rest := by
  refine yields_bind.2 ⟨t, rest, yields_attempt.2 h, ?_⟩
  refine yields_bind.2 ⟨none, rest, yields_optional_none.2 ⟨?_, rfl⟩, yields_pure.2 ⟨rfl, rfl⟩⟩
  exact refuses_bind_left (refuses_attempt (refuses_punct hrest))

/-- The mark of powers is followed by one part, so a second mark is left where it is. -/
theorem yields_powerOf_raised {o : Token} (h : Yields (partOf q) ts t (o :: mid))
    (ho : o.kind = .punct .caret) (h' : Yields (partOf q) mid t' rest) :
    Yields (powerOf q) ts (.node (.nary .pow) [t, t']) rest := by
  refine yields_bind.2 ⟨t, _, yields_attempt.2 h, ?_⟩
  refine yields_bind.2 ⟨some t', rest, yields_optional_some.2 ?_, yields_pure.2 ⟨rfl, rfl⟩⟩
  exact yields_bind.2 ⟨o, mid, yields_attempt.2 (yields_punct.2 ⟨rfl, ho⟩), h'⟩

/-- A sum is an expression of its own if no comparison follows. -/
theorem yields_expressionOf_sum (h : Yields (sumOf q) ts t rest)
    (hrest : ∀ o ∈ rest.head?, relation? o = none) : Yields (expressionOf q) ts t rest := by
  refine yields_bind.2 ⟨t, rest, yields_attempt.2 h, ?_⟩
  refine yields_bind.2 ⟨none, rest, yields_optional_none.2 ⟨?_, rfl⟩, yields_pure.2 ⟨rfl, rfl⟩⟩
  exact refuses_bind_left (refuses_satisfy hrest)

/-- A comparison has two sums and ends with the second. -/
theorem yields_expressionOf_comparison {o : Token} {r : Relation}
    (h : Yields (sumOf q) ts t (o :: mid)) (ho : relation? o = some r)
    (h' : Yields (sumOf q) mid t' rest) :
    Yields (expressionOf q) ts (.node (.relation r) [t, t']) rest := by
  refine yields_bind.2 ⟨t, _, yields_attempt.2 h, ?_⟩
  refine yields_bind.2 ⟨some (r, t'), rest, yields_optional_some.2 ?_, yields_pure.2 ⟨rfl, rfl⟩⟩
  refine yields_bind.2 ⟨r, mid, yields_satisfy.2 ⟨o, rfl, ho⟩, ?_⟩
  exact yields_bind.2 ⟨t', rest, h', yields_pure.2 ⟨rfl, rfl⟩⟩

/-- An expression starts with an operand, so it is refused where none can start. -/
theorem refuses_expressionOf (h : ∀ o ∈ ts.head?, ¬ StartsPart o) :
    Refuses (expressionOf q) ts := by
  have hpower : Refuses (powerOf q) ts := refuses_bind_left (refuses_attempt (refuses_partOf h))
  exact refuses_bind_left (refuses_attempt (refuses_chain (refuses_chain hpower)))

/-! ## Statements -/

theorem refuses_ifOf (h : ∀ o ∈ ts.head?, o.kind ≠ .keyword .ifKw) : Refuses (ifOf q) ts :=
  refuses_bind_left (refuses_attempt (refuses_keyword h))

theorem refuses_whileOf (h : ∀ o ∈ ts.head?, o.kind ≠ .keyword .whileKw) :
    Refuses (whileOf q) ts :=
  refuses_bind_left (refuses_attempt (refuses_keyword h))

theorem refuses_returning (h : ∀ o ∈ ts.head?, o.kind ≠ .keyword .returnKw) :
    Refuses (closed (returning : Parser (Tree α))) ts :=
  refuses_bind_left (refuses_bind_left (refuses_attempt (refuses_keyword h)))

theorem refuses_forOf (h : ∀ o ∈ ts.head?, o.kind ≠ .keyword .forKw) : Refuses (forOf q) ts :=
  refuses_bind_left (refuses_attempt (refuses_keyword h))

variable {kw : Token} {c body : Tree α}

/-- The second block is read if it is there. -/
theorem yields_statementOf_if {yes : Tree α} {no : Option (Tree α)} {mid' : List Token}
    (hkw : kw.kind = .keyword .ifKw) (hc : Yields condition ts c mid)
    (hyes : Yields (blockOf q) mid yes mid') (hno : Yields (optional (otherwise q)) mid' no rest) :
    Yields (statementOf q) (kw :: ts) (.node .ifElse (c :: yes :: no.toList)) rest := by
  refine yields_orElse.2 (Or.inl ?_)
  refine yields_bind.2 ⟨kw, ts, yields_attempt.2 (yields_keyword.2 ⟨rfl, hkw⟩), ?_⟩
  refine yields_bind.2 ⟨c, mid, hc, yields_bind.2 ⟨yes, mid', hyes, ?_⟩⟩
  exact yields_bind.2 ⟨no, rest, hno, yields_pure.2 ⟨rfl, rfl⟩⟩

/-- The condition of a loop needs no parentheses. -/
theorem yields_statementOf_while (hkw : kw.kind = .keyword .whileKw)
    (hc : Yields expression ts c mid) (hbody : Yields (blockOf q) mid body rest) :
    Yields (statementOf q) (kw :: ts) (.node .whileLoop [c, body]) rest := by
  refine yields_orElse.2 (Or.inr ⟨refuses_ifOf (by simp [hkw]), ?_⟩)
  refine yields_orElse.2 (Or.inl ?_)
  refine yields_bind.2 ⟨kw, ts, yields_attempt.2 (yields_keyword.2 ⟨rfl, hkw⟩), ?_⟩
  refine yields_bind.2 ⟨c, mid, hc, yields_bind.2 ⟨body, rest, hbody, ?_⟩⟩
  exact yields_pure.2 ⟨rfl, rfl⟩

/-- What is returned stands in parentheses, and a semicolon ends the statement. -/
theorem yields_statementOf_return {o : Token} (hkw : kw.kind = .keyword .returnKw)
    (h : Yields condition ts t (o :: rest)) (ho : o.kind = .punct .semicolon) :
    Yields (statementOf q) (kw :: ts) (.node .giveBack [t]) rest := by
  refine yields_orElse.2 (Or.inr ⟨refuses_ifOf (by simp [hkw]), ?_⟩)
  refine yields_orElse.2 (Or.inr ⟨refuses_whileOf (by simp [hkw]), ?_⟩)
  refine yields_orElse.2 (Or.inl (yields_closed ?_ ho))
  refine yields_bind.2 ⟨kw, ts, yields_attempt.2 (yields_keyword.2 ⟨rfl, hkw⟩), ?_⟩
  exact yields_bind.2 ⟨t, _, h, yields_pure.2 ⟨rfl, rfl⟩⟩

/-- The head of such a loop has three expressions with semicolons between them. -/
theorem yields_statementOf_for {l s s' r : Token} {first step : Tree α} {mid' mid'' : List Token}
    (hkw : kw.kind = .keyword .forKw) (hl : l.kind = .punct .openParen)
    (hfirst : Yields expression ts first (s :: mid)) (hs : s.kind = .punct .semicolon)
    (hc : Yields expression mid c (s' :: mid')) (hs' : s'.kind = .punct .semicolon)
    (hstep : Yields expression mid' step (r :: mid'')) (hr : r.kind = .punct .closeParen)
    (hbody : Yields (blockOf q) mid'' body rest) :
    Yields (statementOf q) (kw :: l :: ts) (.node .forLoop [first, c, step, body]) rest := by
  refine yields_orElse.2 (Or.inr ⟨refuses_ifOf (by simp [hkw]), ?_⟩)
  refine yields_orElse.2 (Or.inr ⟨refuses_whileOf (by simp [hkw]), ?_⟩)
  refine yields_orElse.2 (Or.inr ⟨refuses_returning (by simp [hkw]), ?_⟩)
  refine yields_orElse.2 (Or.inl ?_)
  refine yields_bind.2 ⟨kw, _, yields_attempt.2 (yields_keyword.2 ⟨rfl, hkw⟩), ?_⟩
  refine yields_bind.2 ⟨l, ts, yields_attempt.2 (yields_punct.2 ⟨rfl, hl⟩), ?_⟩
  refine yields_bind.2 ⟨first, _, hfirst, ?_⟩
  refine yields_bind.2 ⟨s, mid, yields_attempt.2 (yields_punct.2 ⟨rfl, hs⟩), ?_⟩
  refine yields_bind.2 ⟨c, _, hc, ?_⟩
  refine yields_bind.2 ⟨s', mid', yields_attempt.2 (yields_punct.2 ⟨rfl, hs'⟩), ?_⟩
  refine yields_bind.2 ⟨step, _, hstep, ?_⟩
  refine yields_bind.2 ⟨r, mid'', yields_attempt.2 (yields_punct.2 ⟨rfl, hr⟩), ?_⟩
  exact yields_bind.2 ⟨body, rest, hbody, yields_pure.2 ⟨rfl, rfl⟩⟩

/-- An expression does not start with a keyword. -/
theorem StartsPart.not_keyword {o : Token} (h : StartsPart o) (word : Keyword) :
    o.kind ≠ .keyword word := by
  intro hk
  simp [StartsPart, Token.isNumber, hk] at h

/-- What starts like an operand is no other statement, since those start with keywords. -/
theorem yields_statementOf_expression {o : Token} (hts : ∀ o ∈ ts.head?, StartsPart o)
    (h : Yields expression ts t (o :: rest)) (ho : o.kind = .punct .semicolon) :
    Yields (statementOf q) ts t rest := by
  have hkeyword : ∀ word, ∀ o ∈ ts.head?, o.kind ≠ .keyword word :=
    fun word o ho => (hts o ho).not_keyword word
  refine yields_orElse.2 (Or.inr ⟨refuses_ifOf (hkeyword _), ?_⟩)
  refine yields_orElse.2 (Or.inr ⟨refuses_whileOf (hkeyword _), ?_⟩)
  refine yields_orElse.2 (Or.inr ⟨refuses_returning (hkeyword _), ?_⟩)
  refine yields_orElse.2 (Or.inr ⟨refuses_forOf (hkeyword _), ?_⟩)
  exact yields_attempt.2 (yields_closed h ho)

/-- At the end of a block or of the text no statement is read. -/
theorem refuses_statementOf
    (h : ∀ o ∈ ts.head?, o.kind = .punct .closeCurly ∨ o.kind = .punct .dollar) :
    Refuses (statementOf q) ts := by
  have hkeyword : ∀ word, ∀ o ∈ ts.head?, o.kind ≠ .keyword word := by
    intro word o ho
    rcases h o ho with hk | hk <;> simp [hk]
  refine refuses_orElse (refuses_ifOf (hkeyword _)) ?_
  refine refuses_orElse (refuses_whileOf (hkeyword _)) ?_
  refine refuses_orElse (refuses_returning (hkeyword _)) ?_
  refine refuses_orElse (refuses_forOf (hkeyword _)) (refuses_attempt (refuses_bind_left ?_))
  rw [expression_eq]
  refine refuses_expressionOf fun o ho => ?_
  rcases h o ho with hk | hk <;> simp [StartsPart, Token.isNumber, hk]

/-! ## Definitions -/

/-- The name and the parameters are identifiers, and the body is the last operand of the node. -/
theorem yields_definition_of {l r : Token} {parameters : List Token}
    (hkw : kw.kind = .keyword .functionKw) (hname : name.IsIdentifier)
    (hl : l.kind = .punct .openParen)
    (hparameters : Yields (separated (punct .comma) (attempt identifier)) ts parameters (r :: mid))
    (hr : r.kind = .punct .closeParen) (hbody : Yields block mid body rest) :
    Yields definition (kw :: name :: l :: ts)
      (.node (.define name.text) (parameters.map (fun p => .var p.text) ++ [body])) rest := by
  refine yields_bind.2 ⟨kw, _, yields_attempt.2 (yields_keyword.2 ⟨rfl, hkw⟩), ?_⟩
  refine yields_bind.2 ⟨name, _, yields_attempt.2 (yields_identifier.2 ⟨rfl, hname⟩), ?_⟩
  refine yields_bind.2 ⟨l, ts, yields_attempt.2 (yields_punct.2 ⟨rfl, hl⟩), ?_⟩
  refine yields_bind.2 ⟨parameters, _, hparameters, ?_⟩
  refine yields_bind.2 ⟨r, mid, yields_attempt.2 (yields_punct.2 ⟨rfl, hr⟩), ?_⟩
  exact yields_bind.2 ⟨body, rest, hbody, yields_pure.2 ⟨rfl, rfl⟩⟩

theorem refuses_definition (h : ∀ o ∈ ts.head?, o.kind ≠ .keyword .functionKw) :
    Refuses (definition : Parser (Tree α)) ts :=
  refuses_bind_left (refuses_attempt (refuses_keyword h))

end Fluxion.Grammar

import Fluxion.Proofs.Tree.Spelling

/-!
# Trees are read back from their texts

The production that reads a tree is given by how tightly the tree binds: parts, powers, products,
sums, expressions (`reader`). It reads the tree back wherever the next token does not go on with it
(`ReadsBack.reads`). An operand of a run has to be read with the operators after it, since a tree of
the same level at the front of a run is written without parentheses, and its own operators are part
of the run: for this the property is strengthened to any operators that follow
(`ReadsBack.resumes`).
-/

namespace Fluxion.Grammar

open Fluxion.Parser

variable {α : Type} [Literal α]

/-- The production that reads trees of a precedence, and all that bind more tightly. -/
def reader : Nat → Parser (Tree α)
  | 0 | 1 => expression
  | 2 => sum
  | 3 => product
  | 4 => power
  | _ => part

/-- The marks that must not follow what is read at a precedence. -/
def enders : Nat → List Punct
  | 0 | 1 => .equals :: .openParen :: operatorMarks
  | 2 => [.equals, .openParen, .caret, .star, .slash, .plus, .minus]
  | 3 => [.equals, .openParen, .caret, .star, .slash]
  | 4 => [.equals, .openParen, .caret]
  | _ => [.equals, .openParen]

/-- The operators of a level with an operand each. -/
def follower : Nat → Parser (NaryOp × Tree α)
  | 2 => operation .additive additive? product
  | _ => operation .multiplicative multiplicative? power

variable {ts mid rest : List Token} {t : Tree α} {others : List (NaryOp × Tree α)}

theorem reader_of_five_le {l : Nat} (h : 5 ≤ l) : (reader l : Parser (Tree α)) = part := by
  obtain ⟨k, rfl⟩ : ∃ k, l = k + 5 := ⟨l - 5, by omega⟩
  rfl

/-- Past its operators a level has no other. -/
theorem refuses_follower {l : Nat} (hl : l = 2 ∨ l = 3) (h : Avoids (enders l) ts) :
    Refuses (follower l : Parser (NaryOp × Tree α)) ts := by
  rcases hl with rfl | rfl
  · exact refuses_operation fun o ho => additive?_accepts.refuses fun mark hmark =>
      h o ho mark (by revert hmark; revert mark; decide)
  · exact refuses_operation fun o ho => multiplicative?_accepts.refuses fun mark hmark =>
      h o ho mark (by revert hmark; revert mark; decide)

/-- A first operand of the next level, and what follows of this one, are grouped to a tree. -/
theorem yields_reader_grouped {l : Nat} (hl : l = 2 ∨ l = 3)
    (h : Yields (reader (l + 1)) ts t mid) (h' : Yields (many (follower l)) mid others rest) :
    Yields (reader l) ts (grouped t others) rest := by
  rcases hl with rfl | rfl
  · exact yields_chain h h'
  · exact yields_chain h h'

/-- What is read at a level is read at the level below, if nothing of that level follows. -/
theorem yields_reader_step {l : Nat} (h : Yields (reader (l + 1)) ts t rest)
    (hrest : Avoids (enders l) rest) : Yields (reader l) ts t rest := by
  match l with
  | 0 => exact h
  | 1 =>
    show Yields expression ts t rest
    rw [expression_eq]
    exact yields_expressionOf_sum h (relation?_of_avoids (hrest.mono (by decide)))
  | 2 =>
    have hnone := yields_many_of_refuses (refuses_follower (α := α) (Or.inl rfl) hrest)
    exact yields_reader_grouped (Or.inl rfl) h hnone
  | 3 =>
    have hnone := yields_many_of_refuses (refuses_follower (α := α) (Or.inr rfl) hrest)
    exact yields_reader_grouped (Or.inr rfl) h hnone
  | 4 => exact yields_powerOf_part h fun o ho => hrest o ho .caret (by decide)
  | l + 5 =>
    rw [reader_of_five_le (by omega)] at h ⊢
    exact h

theorem enders_step (l : Nat) : enders (l + 1) ⊆ enders l := by
  match l with
  | 0 => decide
  | 1 => decide
  | 2 => decide
  | 3 => decide
  | 4 => decide
  | l + 5 => exact List.Subset.refl _

/-- What goes on with a tighter tree goes on with a looser one as well. -/
theorem enders_subset {l k : Nat} (hlk : l ≤ k) : enders k ⊆ enders l := by
  induction hlk with
  | refl => exact List.Subset.refl _
  | step _ ih => exact List.Subset.trans (enders_step _) ih

/-- What is read at a level is read at every level below. -/
theorem yields_reader_of_le {l k : Nat} (hlk : l ≤ k) (h : Yields (reader k) ts t rest)
    (hrest : Avoids (enders l) rest) : Yields (reader l) ts t rest := by
  induction hlk with
  | refl => exact h
  | step hk ih => exact ih (yields_reader_step h (hrest.mono (enders_subset hk)))

end Fluxion.Grammar

namespace Fluxion

open Fluxion.Parser Fluxion.Grammar

/-- More operands of the same operator. -/
theorem extend_map {α : Type} {op : NaryOp} {others : List (NaryOp × Tree α)}
    (acc ts : List (Tree α)) :
    extend op acc (ts.map (fun t => (op, t)) ++ others) = extend op (acc ++ ts) others := by
  induction ts generalizing acc with
  | nil => rw [List.append_nil]; rfl
  | cons t ts ih =>
    rw [List.map_cons, List.cons_append, extend, if_pos rfl, ih, List.append_assoc]
    rfl

/-- An operand after the first that needs no parentheses binds more tightly than the operator. -/
theorem needsParens_one {α : Type} {op : NaryOp} (hop : op ≠ .pow) (t : Tree α) :
    (Operator.nary op).needsParens 1 t = false →
      (Operator.nary op).precedence + 1 ≤ t.precedence := by
  intro h
  cases op <;> first
    | exact (hop rfl).elim
    | simp [Operator.needsParens] at h; omega

/-- A first operand without parentheses that is not of the level of its run binds tighter. -/
theorem needsParens_zero {α : Type} {op : NaryOp} {t : Tree α} (hop : op ≠ .pow)
    (h : (Operator.nary op).needsParens 0 t = false)
    (hne : t.precedence ≠ (Operator.nary op).precedence) :
    (Operator.nary op).precedence + 1 ≤ t.precedence := by
  cases op <;> first
    | exact (hop rfl).elim
    | simp [Operator.needsParens] at h; omega

/-- A first operand without parentheses that is a run itself has another operator. -/
theorem ne_of_needsParens_zero {α : Type} {op op' : NaryOp} {ts : List (Tree α)} (hop : op ≠ .pow)
    (h : (Operator.nary op).needsParens 0 (Tree.node (.nary op') ts) = false) : op ≠ op' := by
  rintro rfl
  cases op <;> first
    | exact (hop rfl).elim
    | simp [Operator.needsParens, Tree.precedence, Tree.operator?, Tree.isOperator] at h

/-- A tree that binds like the runs of an operator is such a run. -/
theorem run_of_precedence {α : Type} {op : NaryOp} {t : Tree α} (hop : op ≠ .pow)
    (h : t.precedence = (Operator.nary op).precedence) :
    ∃ op' ts, t = .node (.nary op') ts ∧ op' ≠ .pow := by
  cases t with
  | num a => cases op <;> first | exact (hop rfl).elim | exact nomatch h
  | var x => cases op <;> first | exact (hop rfl).elim | exact nomatch h
  | node o ts =>
    cases o with
    | nary op' =>
      refine ⟨op', ts, rfl, ?_⟩
      rintro rfl
      cases op <;> first | exact (hop rfl).elim | exact nomatch h
    | _ => cases op <;> first | exact (hop rfl).elim | exact nomatch h

variable {α : Type} [Literal α]

/-- A tree is read back from the tokens of its pieces, at the level of its precedence and every
level below, where the next token does not go on with it. If it is a run of an arithmetic operator,
it is also read as the front of a longer run. -/
structure ReadsBack (t : Tree α) : Prop where
  reads : ∀ {w rest : List Token} {l : Nat}, Spelled t.pieces w → l ≤ t.precedence →
    Avoids (enders l) rest → Yields (reader l) (w ++ rest) t rest
  resumes : ∀ {op : NaryOp} {ts : List (Tree α)}, t = .node (.nary op) ts → op ≠ .pow →
    ∀ {w rest rest' : List Token} {others : List (NaryOp × Tree α)}, Spelled t.pieces w →
    Avoids (enders (t.precedence + 1)) rest →
    Yields (many (follower t.precedence)) rest others rest' →
    Yields (reader t.precedence) (w ++ rest) (extend op ts others) rest'

variable {t u : Tree α} {ts : List (Tree α)} {w rest rest' : List Token} {op : NaryOp}
variable {others : List (NaryOp × Tree α)}

/-- A tree that is no run of an arithmetic operator only has to be read. -/
theorem ReadsBack.of_reads (hop : ∀ op ts, t = .node (.nary op) ts → op = .pow)
    (h : ∀ {w rest : List Token}, Spelled t.pieces w → Avoids (enders t.precedence) rest →
      Yields (reader t.precedence) (w ++ rest) t rest) : ReadsBack t where
  reads hw hl hrest := yields_reader_of_le hl (h hw (hrest.mono (enders_subset hl))) hrest
  resumes ht hne := (hne (hop _ _ ht)).elim

/-- Whatever stands in parentheses is a part. -/
theorem ReadsBack.inParens (h : ReadsBack t) (hw : Spelled (Written.inParens t.pieces) w) :
    Yields part (w ++ rest) t rest := by
  obtain ⟨l, w', rfl, hl, hw'⟩ := hw.punct .openParen rfl
  obtain ⟨v, u, rfl, hv, hu⟩ := spelled_append.1 hw'
  obtain ⟨r, u', rfl, hr, rfl⟩ := hu.punct .closeParen rfl
  have hinner := h.reads (l := 0) hv (Nat.zero_le _) (stops_of_kind rest hr (by decide))
  rw [List.cons_append, List.append_assoc]
  exact yields_partOf_parenthesized hl hinner hr

/-- An operand is read at a level that it binds to without parentheses. -/
theorem ReadsBack.operand {o : Operator} {i l : Nat} (h : ReadsBack t)
    (hw : Spelled (Written.operandPieces o i t) w)
    (hl : o.needsParens i t = false → l ≤ t.precedence)
    (hrest : Avoids (enders l) rest) (hl5 : l ≤ 5) : Yields (reader l) (w ++ rest) t rest := by
  unfold Written.operandPieces at hw
  split at hw
  · exact yields_reader_of_le hl5 (h.inParens hw) hrest
  · next hparens => exact h.reads hw (hl (by simpa using hparens)) hrest

/-! ## Runs -/

/-- All operators but powers are of one of the two levels with runs. -/
theorem level_of_ne_pow (hop : op ≠ .pow) :
    (Operator.nary op).precedence = 2 ∨ (Operator.nary op).precedence = 3 := by
  cases op
  · exact Or.inl rfl
  · exact Or.inl rfl
  · exact Or.inr rfl
  · exact Or.inr rfl
  · exact (hop rfl).elim

theorem operandLevel_le (hop : op ≠ .pow) : (Operator.nary op).precedence + 1 ≤ 5 := by
  rcases level_of_ne_pow hop with h | h <;> omega

/-- The mark of an operator is followed by an operand of the next level. -/
theorem yields_follower {o : Token} {ts' : List Token} (hop : op ≠ .pow)
    (ho : o.kind = .punct op.mark)
    (h : Yields (reader ((Operator.nary op).precedence + 1)) ts' t rest) :
    Yields (follower (Operator.nary op).precedence) (o :: ts') (op, t) rest := by
  cases op
  · exact yields_operation ((marked?_eq_some_iff NaryOp.mark_inj).2 ⟨by decide, ho⟩) h
  · exact yields_operation ((marked?_eq_some_iff NaryOp.mark_inj).2 ⟨by decide, ho⟩) h
  · exact yields_operation ((marked?_eq_some_iff NaryOp.mark_inj).2 ⟨by decide, ho⟩) h
  · exact yields_operation ((marked?_eq_some_iff NaryOp.mark_inj).2 ⟨by decide, ho⟩) h
  · exact (hop rfl).elim

/-- The mark of an operator may follow an operand of it. -/
theorem mark_not_mem_enders (hop : op ≠ .pow) :
    op.mark ∉ enders ((Operator.nary op).precedence + 1) := by
  cases op
  · decide
  · decide
  · decide
  · decide
  · exact (hop rfl).elim

/-- The operands after the first are read one after another, and then the operators that follow. -/
theorem yields_many_follower (hop : op ≠ .pow) (hts : ∀ t ∈ ts, ReadsBack t)
    (hw : Spelled (ts.flatMap fun t => op.sign :: Written.operandPieces (.nary op) 1 t) w)
    (hrest : Avoids (enders ((Operator.nary op).precedence + 1)) rest)
    (hothers : Yields (many (follower (Operator.nary op).precedence)) rest others rest') :
    Yields (many (follower (Operator.nary op).precedence)) (w ++ rest)
        (ts.map (fun t => (op, t)) ++ others) rest' ∧
      Avoids (enders ((Operator.nary op).precedence + 1)) (w ++ rest) := by
  -- each operand is read only if the next token ends it, so both facts go through the induction
  induction ts generalizing w with
  | nil =>
    cases hw
    exact ⟨hothers, hrest⟩
  | cons t ts ih =>
    rw [List.flatMap_cons, List.cons_append] at hw
    obtain ⟨o, w', rfl, ho, hw'⟩ := hw.punct op.mark op.sign_toList
    obtain ⟨v, u, rfl, hv, hu⟩ := spelled_append.1 hw'
    obtain ⟨hmany, havoids⟩ := ih (fun t ht => hts t (List.mem_cons_of_mem _ ht)) hu
    have hoperand := (hts t List.mem_cons_self).operand hv (needsParens_one hop t) havoids
      (operandLevel_le hop)
    have hitem := yields_follower hop ho hoperand
    rw [List.cons_append, List.append_assoc, List.map_cons, List.cons_append]
    refine ⟨yields_many_of_yields hitem ?_ hmany, ?_⟩
    · simp only [List.length_cons, List.length_append]
      omega
    · exact avoids_of_kind _ ho (mark_not_mem_enders hop)

/-- A run is read back together with the operators that follow. Its first operand may be a run of
another operator of the same level, which is resumed. -/
theorem resumes_nary (hop : op ≠ .pow) (ht : ReadsBack t) (hts : ∀ u ∈ ts, ReadsBack u)
    (hne : ts ≠ []) (hw : Spelled (Tree.node (.nary op) (t :: ts)).pieces w)
    (hrest : Avoids (enders ((Operator.nary op).precedence + 1)) rest)
    (hothers : Yields (many (follower (Operator.nary op).precedence)) rest others rest') :
    Yields (reader (Operator.nary op).precedence) (w ++ rest)
      (extend op (t :: ts) others) rest' := by
  obtain ⟨u, us, rfl⟩ := List.exists_cons_of_ne_nil hne
  rw [Tree.pieces_nary hop] at hw
  obtain ⟨v, x, rfl, hv, hx⟩ := spelled_append.1 hw
  obtain ⟨hmany, havoids⟩ := yields_many_follower hop hts hx hrest hothers
  have hall : extend op [t, u] (us.map (fun t => (op, t)) ++ others) =
      extend op (t :: u :: us) others := extend_map [t, u] us
  rw [List.append_assoc]
  -- `a - b + c` is read as one sequence of operators, so the run `a - b` in front is not read by
  -- itself: its reading is resumed with the operands of the outer run
  by_cases hparens : (Operator.nary op).needsParens 0 t = false ∧
      t.precedence = (Operator.nary op).precedence
  · obtain ⟨hparens, hprec⟩ := hparens
    obtain ⟨op', ts', rfl, hop'⟩ := run_of_precedence hop hprec
    have hdiff : op ≠ op' := ne_of_needsParens_zero hop hparens
    have hv' : Spelled (Tree.node (.nary op') ts').pieces v := by
      rwa [Written.operandPieces, hparens, if_neg Bool.false_ne_true] at hv
    have hresumed := ht.resumes rfl hop' hv' (by rw [hprec]; exact havoids)
      (by rw [hprec]; exact hmany)
    rw [hprec, List.map_cons, List.cons_append, extend, if_neg hdiff, hall] at hresumed
    exact hresumed
  · have hl : (Operator.nary op).needsParens 0 t = false →
        (Operator.nary op).precedence + 1 ≤ t.precedence :=
      fun h => needsParens_zero hop h fun h' => hparens ⟨h, h'⟩
    have hfirst := ht.operand hv hl havoids (operandLevel_le hop)
    have hwhole := yields_reader_grouped (level_of_ne_pow hop) hfirst hmany
    rw [List.map_cons, List.cons_append, grouped, hall] at hwhole
    exact hwhole

/-- The first operand is read with the operators behind it, the others one by one. -/
theorem readsBack_nary (hop : op ≠ .pow) (ht : ReadsBack t) (hts : ∀ u ∈ ts, ReadsBack u)
    (hne : ts ≠ []) : ReadsBack (Tree.node (.nary op) (t :: ts)) where
  reads := by
    intro w rest l hw hl hrest
    have hlevel : Avoids (enders (Operator.nary op).precedence) rest :=
      hrest.mono (enders_subset hl)
    have hnone := yields_many_of_refuses (refuses_follower (α := α) (level_of_ne_pow hop) hlevel)
    exact yields_reader_of_le hl
      (resumes_nary hop ht hts hne hw (hlevel.mono (enders_step _)) hnone) hrest
  resumes := by
    intro op' ts' heq _ w rest rest' others hw hrest hothers
    cases heq
    exact resumes_nary hop ht hts hne hw hrest hothers

/-! ## Expressions -/

theorem IsName.spells {x : String} (h : IsName x) : Kind.name.Spells x.toList :=
  ⟨h.1, by rw [String.ofList_toList]; exact h.2.2⟩

/-- The token of a name is an identifier with that text. -/
theorem Spelled.name {x : String} {ps : List String} (h : Spelled (x :: ps) w) (hx : IsName x) :
    ∃ o w', w = o :: w' ∧ o.IsIdentifier ∧ o.text = x ∧ Spelled ps w' := by
  obtain ⟨o, w', rfl, hkind, htext, hrest⟩ := h.token hx.spells trivial
  exact ⟨o, w', rfl, ⟨hkind, by rw [htext]; exact hx.2.1⟩, htext, hrest⟩

variable {finite : α → Prop}

/-- The text of a number is a number of the grammar. -/
theorem Legible.number (h : Legible finite) {a : α} (ha : finite a)
    (hw : Spelled [Literal.text a] w) : Phrase.Number w a := by
  rcases h a ha with ⟨hs, hread⟩ | ⟨s, htext, hs, hread⟩
  · obtain ⟨o, w', rfl, ho, htext, rfl⟩ := hw.numeral hs
    have hnumber := Phrase.Number.unsigned (α := α) ho
    rwa [htext, hread] at hnumber
  · rw [htext] at hw
    obtain ⟨sign, o, w', rfl, hsign, ho, rfl, hstop, rfl⟩ := hw.negative hs
    have hnumber := Phrase.Number.negative (α := α) hsign ho hstop
    rwa [hread] at hnumber

/-- A constant is read back as a number, its sign included. -/
theorem readsBack_num (h : Legible finite) {a : α} (ha : finite a) :
    ReadsBack (.num a) := by
  refine .of_reads (fun _ _ h => nomatch h) ?_
  intro w rest hw _
  rw [Tree.pieces_num] at hw
  exact yields_partOf_number (h.number ha hw)

theorem readsBack_var {x : String} (hx : IsName x) : ReadsBack (.var x : Tree α) := by
  refine .of_reads (fun _ _ h => nomatch h) ?_
  intro w rest hw hrest
  rw [Tree.pieces_var] at hw
  obtain ⟨o, w', rfl, ho, rfl, rfl⟩ := hw.name hx
  have hends : Avoids [.equals, .openParen] rest := hrest
  refine yields_partOf_name ho ?_
  intro o' ho'
  exact ⟨hends o' ho' .equals (by decide), hends o' ho' .openParen (by decide)⟩

/-- Two operands are read one after the other if neither binds less than the level and the mark
between them ends the first. -/
theorem ReadsBack.operands {o : Operator} {l : Nat} {mark : Punct} {sign : String}
    (ht : ReadsBack t) (hu : ReadsBack u) (hsign : sign.toList = [mark.char])
    (hw : Spelled (Written.operandPieces o 0 t ++ sign :: Written.operandPieces o 1 u) w)
    (hparens : ∀ i (t : Tree α), o.needsParens i t = false → l ≤ t.precedence)
    (hmark : mark ∉ enders l) (hrest : Avoids (enders l) rest) (hl : l ≤ 5) :
    ∃ v m v', w = v ++ m :: v' ∧ m.kind = .punct mark ∧
      Yields (reader l) (v ++ m :: (v' ++ rest)) t (m :: (v' ++ rest)) ∧
      Yields (reader l) (v' ++ rest) u rest := by
  obtain ⟨v, x, rfl, hv, hx⟩ := spelled_append.1 hw
  obtain ⟨m, v', rfl, hm, hv'⟩ := hx.punct mark hsign
  have hfirst := ht.operand hv (hparens 0 t) (avoids_of_kind (v' ++ rest) hm hmark) hl
  have hsecond := hu.operand hv' (hparens 1 u) hrest hl
  exact ⟨v, m, v', rfl, hm, hfirst, hsecond⟩

/-- Both operands of a power are parts. -/
theorem readsBack_pow (ht : ReadsBack t) (hu : ReadsBack u) :
    ReadsBack (.node (.nary .pow) [t, u]) := by
  refine .of_reads (fun _ _ h => by cases h; rfl) ?_
  intro w rest hw hrest
  rw [Tree.pieces_pow] at hw
  have hparens : ∀ i (t : Tree α), (Operator.nary .pow).needsParens i t = false →
      5 ≤ t.precedence := by
    intro i t h
    exact Nat.lt_of_not_le (of_decide_eq_false h)
  have hmark : Punct.caret ∉ enders 5 := by decide
  obtain ⟨v, o, v', rfl, ho, hbase, hexponent⟩ :=
    ht.operands hu rfl hw hparens hmark (hrest.mono (enders_step 4)) (Nat.le_refl 5)
  rw [List.append_assoc]
  exact yields_powerOf_raised hbase ho hexponent

/-- Both sides of a comparison are sums. -/
theorem readsBack_relation {r : Relation} (ht : ReadsBack t) (hu : ReadsBack u) :
    ReadsBack (.node (.relation r) [t, u]) := by
  refine .of_reads (fun _ _ h => nomatch h) ?_
  intro w rest hw hrest
  rw [Tree.pieces_relation] at hw
  have hparens : ∀ i (t : Tree α), (Operator.relation r).needsParens i t = false →
      2 ≤ t.precedence := by
    intro i t h
    exact Nat.lt_of_not_le (of_decide_eq_false h)
  have hmark : r.mark ∉ enders 2 := by cases r <;> decide
  obtain ⟨v, o, v', rfl, ho, hleft, hright⟩ :=
    ht.operands hu r.sign_toList hw hparens hmark (hrest.mono (enders_step 1)) (by decide)
  have hr : relation? o = some r := relation?_of_mark ho
  show Yields expression _ _ _
  rw [expression_eq, List.append_assoc]
  exact yields_expressionOf_comparison hleft hr hright

/-- An assignment takes in all that its value does. -/
theorem readsBack_assign {x : String} (hx : IsName x) (ht : ReadsBack t) :
    ReadsBack (.node .assign [.var x, t]) := by
  refine .of_reads (fun _ _ h => nomatch h) ?_
  intro w rest hw hrest
  rw [Tree.pieces_assign] at hw
  obtain ⟨name, w', rfl, hname, rfl, hw'⟩ := hw.name hx
  obtain ⟨eq, v, rfl, heq, hv⟩ := hw'.punct .equals rfl
  have hvalue : Yields expression (v ++ rest) t rest := ht.reads hv (Nat.zero_le _) hrest
  have hpart : Yields (reader 5) (name :: eq :: (v ++ rest)) _ rest :=
    yields_partOf_assignment hname heq hvalue
  exact yields_reader_of_le (Nat.zero_le 5) hpart hrest

/-! ## Calls -/

/-- A function is found by its own name only. -/
theorem Func.ofName?_eq_some {name : String} {f : Func} (h : Func.ofName? name = some f) :
    name = f.name := by
  have := List.find?_some h
  exact (by simpa using this : f.name = name).symm

theorem callOperator_func {α : Type} (f : Func) (t : Tree α) :
    callOperator f.name [t] = .func f := by
  cases f <;> rfl

/-- A name with arguments is called by that name, unless it is a function with a single argument. -/
theorem callOperator_call {α : Type} {name : String} {ts : List (Tree α)}
    (h : ∀ f : Func, name = f.name → ts.length ≠ 1) : callOperator name ts = .call name := by
  unfold callOperator
  split
  · next f t hname => exact (h f (Func.ofName?_eq_some hname) rfl).elim
  · rfl

/-- Arguments after the first are read back one after another. -/
theorem yields_many_afterComma (rest : List Token) (hts : ∀ t ∈ ts, ReadsBack t)
    (hw : Spelled (ts.flatMap fun t => "," :: " " :: t.pieces) w) {r : Token}
    (hr : r.kind = .punct .closeParen) :
    Yields (many (afterComma expression)) (w ++ r :: rest) ts (r :: rest) ∧
      Stops (w ++ r :: rest) := by
  induction ts generalizing w with
  | nil =>
    cases hw
    exact ⟨yields_many_of_refuses (refuses_afterComma (by simp [hr])),
      stops_of_kind rest hr (by decide)⟩
  | cons t ts ih =>
    obtain ⟨o, w', rfl, ho, hw'⟩ := hw.punct .comma rfl
    obtain ⟨v, u, rfl, hv, hu⟩ := spelled_append.1 hw'.blank
    obtain ⟨hmany, hstops⟩ := ih (fun t ht => hts t (List.mem_cons_of_mem _ ht)) hu
    have hfirst : Yields expression (v ++ (u ++ r :: rest)) t (u ++ r :: rest) :=
      (hts t List.mem_cons_self).reads hv (Nat.zero_le _) hstops
    rw [List.cons_append, List.append_assoc]
    refine ⟨yields_many_of_yields (yields_afterComma ho hfirst) ?_ hmany,
      stops_of_kind _ ho (by decide)⟩
    simp only [List.length_cons, List.length_append]
    omega

/-- Arguments are read back, as many as there are. -/
theorem yields_separated_listed (hts : ∀ t ∈ ts, ReadsBack t)
    (hw : Spelled (Written.listed "," (ts.map Tree.pieces)) w) {r : Token}
    (hr : r.kind = .punct .closeParen) :
    Yields (separated (punct .comma) expression) (w ++ r :: rest) ts (r :: rest) := by
  cases ts with
  | nil =>
    cases hw
    refine yields_separated_nil ?_
    rw [expression_eq]
    refine refuses_expressionOf ?_
    simp [StartsPart, Token.isNumber, hr]
  | cons t ts =>
    rw [Written.listed, List.map_cons, Written.intercalate_cons, List.flatMap_map] at hw
    obtain ⟨v, u, rfl, hv, hu⟩ := spelled_append.1 hw
    obtain ⟨hmany, hstops⟩ :=
      yields_many_afterComma rest (fun t ht => hts t (List.mem_cons_of_mem _ ht)) hu hr
    have hfirst : Yields expression (v ++ (u ++ r :: rest)) t (u ++ r :: rest) :=
      (hts t List.mem_cons_self).reads hv (Nat.zero_le _) hstops
    rw [List.append_assoc]
    exact yields_separated_cons hfirst hmany

/-- A name and arguments in parentheses. -/
theorem yields_call {name : String} (rest : List Token) (hname : IsName name)
    (hts : ∀ t ∈ ts, ReadsBack t)
    (hw : Spelled (name :: Written.inParens (Written.listed "," (ts.map Tree.pieces))) w) :
    Yields part (w ++ rest) (.node (callOperator name ts) ts) rest := by
  obtain ⟨o, w', rfl, ho, rfl, hw'⟩ := hw.name hname
  obtain ⟨l, v, rfl, hl, hv⟩ := hw'.punct .openParen rfl
  obtain ⟨x, u, rfl, hx, hu⟩ := spelled_append.1 hv
  obtain ⟨r, u', rfl, hr, rfl⟩ := hu.punct .closeParen rfl
  rw [List.cons_append, List.cons_append, List.append_assoc]
  exact yields_partOf_call ho hl (yields_separated_listed hts hx hr) hr

/-- A function is read back as a call with one argument. -/
theorem readsBack_func {f : Func} (ht : ReadsBack t) : ReadsBack (.node (.func f) [t]) := by
  refine .of_reads (fun _ _ h => nomatch h) ?_
  intro w rest hw _
  have hlisted : Written.listed "," ([t].map Tree.pieces) = t.pieces := by
    simp [Written.listed, List.intercalate]
  rw [Tree.pieces_func, ← hlisted] at hw
  have hcall := yields_call rest f.isName (by simpa using ht) hw
  rwa [callOperator_func] at hcall

theorem readsBack_call {name : String} (hname : IsName name)
    (hlen : ∀ f : Func, name = f.name → ts.length ≠ 1) (hts : ∀ t ∈ ts, ReadsBack t) :
    ReadsBack (.node (.call name) ts) := by
  refine .of_reads (fun _ _ h => nomatch h) ?_
  intro w rest hw _
  rw [Tree.pieces_call] at hw
  have hcall := yields_call rest hname hts hw
  rwa [callOperator_call hlen] at hcall

/-- Every expression is read back. -/
theorem Shape.Expression.readsBack (hlegible : Legible finite) (h : Shape.Expression finite t) :
    ReadsBack t := by
  induction h with
  | num ha => exact readsBack_num hlegible ha
  | var hx => exact readsBack_var hx
  | @nary op ts hop hlen _ ih =>
    match ts, hlen with
    | t :: u :: ts, _ =>
      exact readsBack_nary hop (ih t List.mem_cons_self)
        (fun u hu => ih u (List.mem_cons_of_mem _ hu)) (List.cons_ne_nil _ _)
  | pow _ _ ih ih' => exact readsBack_pow ih ih'
  | relation _ _ ih ih' => exact readsBack_relation ih ih'
  | func _ ih => exact readsBack_func ih
  | assign hx _ ih => exact readsBack_assign hx ih
  | call hname hlen _ ih => exact readsBack_call hname hlen ih

end Fluxion

import Fluxion.Proofs.Grammar.Choice
import Fluxion.Proofs.Grammar.Levels
import Fluxion.Proofs.Grammar.Recursion

/-!
# Every phrase is read

The parser attaches every operator to the innermost level that takes it, and stops only where none
does. So it reads a whole expression of the grammar wherever the next token cannot go on with one
(`Expression.yields`), and, since the first token of a statement tells which kind it is, whole
statements and programs.

The route is to follow the parser along `Runs`. `Consumes p n s u ends` says that `p`, with the
levels `s` open, reads some of the tokens and leaves the others to the levels `u`, and that the next
token is none of `ends`. Each production takes this from the ones that it calls, on fewer tokens.
What is read does not depend on what comes after the expression, as long as it does not go on with
it.
-/

namespace Fluxion.Grammar

open Fluxion.Parser Level

/-- The next token is none of the given marks. -/
def Avoids (marks : List Punct) (ts : List Token) : Prop :=
  ∀ o ∈ ts.head?, ∀ mark ∈ marks, o.kind ≠ .punct mark

/-- The marks that go on with an expression after an operand. -/
def operatorMarks : List Punct := [.caret, .star, .slash, .plus, .minus, .less, .greater, .tilde]

/-- The next token does not go on with what is read as an expression. -/
def Stops (ts : List Token) : Prop := Avoids (.equals :: .openParen :: operatorMarks) ts

variable {n : Nat} {s s' u u' : List Level} {w w' rest : List Token} {marks marks' : List Punct}

theorem Avoids.mono (h : Avoids marks w) (hsub : marks' ⊆ marks) : Avoids marks' w :=
  fun o ho mark hmark => h o ho mark (hsub hmark)

/-- Marks that are avoided separately are avoided together. -/
theorem Avoids.append (h : Avoids marks w) (h' : Avoids marks' w) : Avoids (marks ++ marks') w := by
  intro o ho mark hmark
  rcases List.mem_append.1 hmark with hmark | hmark
  · exact h o ho mark hmark
  · exact h' o ho mark hmark

/-- A token with another mark is none of the given ones. -/
theorem avoids_of_kind {o : Token} {mark : Punct} (rest : List Token) (ho : o.kind = .punct mark)
    (hmark : mark ∉ marks) : Avoids marks (o :: rest) := by
  intro o' ho' mark' hmark' hkind
  cases ho'
  rw [ho] at hkind
  cases hkind
  exact hmark hmark'

/-- The mark that comes next is the one that is not avoided. -/
theorem mem_of_not_avoids {o : Token} {mark : Punct} (ho : o.kind = .punct mark)
    (h : ¬ Avoids marks (o :: rest)) : mark ∈ marks :=
  Decidable.byContradiction fun hmark => h (avoids_of_kind rest ho hmark)

theorem attach_mem {mark : Punct} (h : attach mark s = some u) : mark ∈ operatorMarks := by
  cases mark <;> first | decide | exact nomatch h

/-- Where an operator is due, no other mark comes next. -/
theorem Runs.avoids (h : Runs .operator s w) (hrest : Avoids marks rest)
    (hmarks : ∀ mark ∈ marks, mark ∉ operatorMarks) : Avoids marks (w ++ rest) := by
  cases h with
  | stop => exact hrest
  | attach ho hu _ =>
    intro o ho' mark hmark hkind
    cases ho'
    rw [ho] at hkind
    cases hkind
    exact hmarks _ hmark (attach_mem hu)

theorem avoids_nil : Avoids marks [] := fun _ ho => nomatch ho

/-- The next token is one of the first tokens, or else one of the others. -/
theorem Avoids.append_rest (h : Avoids marks w) (hrest : Avoids marks rest) :
    Avoids marks (w ++ rest) := by
  cases w with
  | nil => exact hrest
  | cons o w => exact h

/-- No expression goes on with a mark that is not avoided. -/
theorem Avoids.append_stops (h : Avoids marks w) (hmarks : marks ⊆ operatorMarks)
    (hrest : Stops rest) : Avoids marks (w ++ rest) :=
  h.append_rest (hrest.mono fun _ hmark =>
    List.mem_cons_of_mem _ (List.mem_cons_of_mem _ (hmarks hmark)))

/-- Levels that take the next operator alike get through the same tokens. -/
theorem Runs.change (h : Runs .operator s w) (havoids : Avoids marks w)
    (hattach : ∀ mark ∉ marks, Level.attach mark s = Level.attach mark s') :
    Runs .operator s' w := by
  cases h with
  | stop => exact .stop
  | @attach _ u mark o w ho hu hw =>
    refine .attach ho ?_ hw
    rw [← hattach mark fun hmark => havoids o rfl mark hmark ho]
    exact hu

variable {α : Type}

/-- On up to `n` tokens that the levels `s` get through, the parser reads a value and leaves tokens
that the levels `u` get through, the next one none of `ends`. So it does before all tokens that do
not go on with an expression. -/
def Consumes (p : Parser (Tree α)) (n : Nat) (s u : List Level) (ends : List Punct) : Prop :=
  ∀ {w : List Token}, w.length ≤ n → Runs .operand s w →
    ∃ t w', w'.length < w.length ∧ Runs .operator u w' ∧ Avoids ends w' ∧
      ∀ {rest : List Token}, Stops rest → Yields p (w ++ rest) t (w' ++ rest)

/-! ## Chains -/

section Chains

variable {p : Parser (Tree α)} {op? : Token → Option NaryOp} {expected : Expectation}
variable {ends : List Punct} {c : Bool}

/-- The operators that are accepted are those with one of the marks, and each of them makes room for
another operand of a power. -/
structure Accepts (op? : Token → Option NaryOp) (marks : List Punct) : Prop where
  operators : marks ⊆ operatorMarks
  accepts : ∀ {o mark}, mark ∈ marks → o.kind = .punct mark → ∃ op, op? o = some op
  refuses : ∀ {o}, (∀ mark ∈ marks, o.kind ≠ .punct mark) → op? o = none
  joins : ∀ mark ∈ marks, attach mark = join

/-- A repetition of operators and operands goes on until the next token is none of its operators. -/
theorem consumes_many (expected : Expectation)
    (h : Consumes p n (⟨c, true⟩ :: s) (⟨c, false⟩ :: s) ends)
    (hop : Accepts op? marks) {w : List Token} (hn : w.length ≤ n)
    (hw : Runs .operator (⟨c, false⟩ :: s) w) (hends : Avoids ends w) :
    ∃ items w', w'.length ≤ w.length ∧ Runs .operator (⟨c, false⟩ :: s) w' ∧
      Avoids (marks ++ ends) w' ∧ ∀ {rest : List Token}, Stops rest →
        Yields (many (operation expected op? p)) (w ++ rest) items (w' ++ rest) := by
  -- an operand may take many tokens, so the induction is on how many are left
  induction hlen : w.length using Nat.strongRecOn generalizing w with
  | ind m ih =>
    subst hlen
    by_cases hmarks : Avoids marks w
    · refine ⟨[], w, Nat.le_refl _, hw, hmarks.append hends, fun hrest => yields_many_of_refuses ?_⟩
      exact refuses_operation fun o ho =>
        hop.refuses (hmarks.append_stops hop.operators hrest o ho)
    · cases hw with
      | stop => exact (hmarks avoids_nil).elim
      | @attach _ u mark o v ho hu hv =>
        have hmark : mark ∈ marks := mem_of_not_avoids ho hmarks
        rw [hop.joins mark hmark] at hu
        cases hu
        obtain ⟨op, hopo⟩ := hop.accepts hmark ho
        rw [List.length_cons] at hn
        obtain ⟨t, v', hlt, hruns, hav, hyields⟩ := h (by omega) hv
        have hlt' : v'.length < (o :: v).length := by
          rw [List.length_cons]
          omega
        obtain ⟨items, w', hle, hruns', hav', hitems⟩ := ih _ hlt' (by omega) hruns hav rfl
        refine ⟨(op, t) :: items, w', by omega, hruns', hav', fun hrest => ?_⟩
        refine yields_many_of_yields (yields_operation hopo (hyields hrest)) ?_ (hitems hrest)
        simp only [List.length_cons, List.length_append]
        omega

/-- A chain takes operands as long as an operator of its level comes, so what comes then is none of
these and nothing that the last operand avoids. -/
theorem consumes_chain (h : Consumes p n (⟨c, true⟩ :: s) (⟨c, false⟩ :: s) ends)
    (hop : Accepts op? marks) :
    Consumes (chain expected op? p) n (⟨c, true⟩ :: s) (⟨c, false⟩ :: s) (marks ++ ends) := by
  intro w hn hw
  obtain ⟨t, v, hlt, hruns, hav, hyields⟩ := h hn hw
  obtain ⟨items, w', hle, hruns', hav', hitems⟩ := consumes_many expected h hop (by omega) hruns hav
  exact ⟨_, w', by omega, hruns', hav', fun hrest => yields_chain (hyields hrest) (hitems hrest)⟩

end Chains

/-- Whatever the operators of a level are, they are taken by their marks, if `^` is not among them.
-/
theorem marked?_accepts {ops : List NaryOp} (hpow : .pow ∉ ops) :
    Accepts (marked? NaryOp.mark ops) (ops.map NaryOp.mark) where
  operators := by
    intro mark hmark
    obtain ⟨op, -, rfl⟩ := List.mem_map.1 hmark
    cases op <;> decide
  accepts := by
    intro o mark hmark ho
    obtain ⟨op, hop, rfl⟩ := List.mem_map.1 hmark
    exact ⟨op, (marked?_eq_some_iff NaryOp.mark_inj).2 ⟨hop, ho⟩⟩
  refuses := fun h => marked?_eq_none fun op hop => h op.mark (List.mem_map_of_mem hop)
  joins := by
    intro mark hmark
    obtain ⟨op, hop, rfl⟩ := List.mem_map.1 hmark
    exact attach_of_ne_pow (ne_of_mem_of_not_mem hop hpow)

theorem additive?_accepts : Accepts additive? [.plus, .minus] :=
  marked?_accepts (by decide : NaryOp.pow ∉ [.add, .sub])

theorem multiplicative?_accepts : Accepts multiplicative? [.star, .slash] :=
  marked?_accepts (by decide : NaryOp.pow ∉ [.mul, .div])

/-! ## Expressions -/

/-- In brackets nothing is left. -/
theorem Consumes.all {p : Parser (Tree α)} {ends : List Punct} (h : Consumes p n [fresh] [] ends)
    (hn : w.length ≤ n) (hw : Runs .operand [fresh] w) :
    ∃ t, ∀ {rest : List Token}, Stops rest → Yields p (w ++ rest) t rest := by
  obtain ⟨t, w', -, hruns, -, hyields⟩ := h hn hw
  cases hruns with
  | stop => exact ⟨t, hyields⟩
  | @attach _ _ mark _ _ _ hu _ => cases mark <;> exact nomatch hu

/-- No expression goes on with such a mark. -/
theorem stops_of_kind {o : Token} {mark : Punct} (rest : List Token) (ho : o.kind = .punct mark)
    (hmark : mark ∉ .equals :: .openParen :: operatorMarks) : Stops (o :: rest) :=
  avoids_of_kind rest ho hmark

/-- Behind an argument comes a comma or the closing mark. -/
theorem stops_arguments {more : List (Token × List Token)} {r : Token} (rest : List Token)
    (hcommas : ∀ item ∈ more, item.1.kind = .punct .comma) (hr : r.kind = .punct .closeParen) :
    Stops (more.flatMap (fun item => item.1 :: item.2) ++ r :: rest) := by
  cases more with
  | nil => exact stops_of_kind _ hr (by decide)
  | cons item more => exact stops_of_kind _ (hcommas item List.mem_cons_self) (by decide)

variable [Literal α]

/-- More arguments, each after a comma, are read up to a token that is no comma. -/
theorem yields_arguments (h : Consumes (expression : Parser (Tree α)) n [fresh] [] [])
    {more : List (Token × List Token)} (hn : (more.flatMap fun item => item.1 :: item.2).length ≤ n)
    (hcommas : ∀ item ∈ more, item.1.kind = .punct .comma)
    (hmore : ∀ item ∈ more, Runs .operand [fresh] item.2) {r : Token}
    (hr : r.kind = .punct .closeParen) :
    ∃ ts, ∀ rest, Yields (many (afterComma (expression : Parser (Tree α))))
      (more.flatMap (fun item => item.1 :: item.2) ++ r :: rest) ts (r :: rest) := by
  induction more with
  | nil => exact ⟨[], fun rest => yields_many_of_refuses (refuses_afterComma (by simp [hr]))⟩
  | cons item more ih =>
    obtain ⟨comma, v⟩ := item
    simp only [List.flatMap_cons, List.length_append, List.length_cons] at hn
    obtain ⟨ts, hts⟩ := ih (by omega) (fun i hi => hcommas i (List.mem_cons_of_mem _ hi))
      (fun i hi => hmore i (List.mem_cons_of_mem _ hi))
    obtain ⟨t, ht⟩ := Consumes.all (w := v) h (by omega) (hmore _ List.mem_cons_self)
    refine ⟨t :: ts, fun rest => ?_⟩
    have hstops := stops_arguments rest (fun i hi => hcommas i (List.mem_cons_of_mem _ hi)) hr
    rw [List.flatMap_cons, List.append_assoc]
    refine yields_many_of_yields
      (yields_afterComma (hcommas (comma, v) List.mem_cons_self) (ht hstops)) ?_ (hts rest)
    simp only [List.cons_append, List.length_cons, List.length_append]
    omega

/-- Which alternative of a part is taken is told by its first two tokens. -/
theorem consumes_part
    (h : ∀ m < n, ∀ s, Consumes (expression : Parser (Tree α)) m (fresh :: s) s []) :
    Consumes (part : Parser (Tree α)) n s s [] := by
  intro w hn hw
  have hends : ∀ v, Avoids [] v := fun v o _ mark hmark => nomatch hmark
  cases hw with
  | @parenthesized _ l r v w hl hv hr hw =>
    simp only [List.length_cons, List.length_append] at hn
    obtain ⟨t, ht⟩ := Consumes.all (h v.length (by omega) []) (Nat.le_refl _) hv
    refine ⟨t, w, ?_, hw, hends w, @fun rest _ => ?_⟩
    · simp only [List.length_cons, List.length_append]
      omega
    · have hinner := ht (stops_of_kind (w ++ rest) hr (by decide))
      rw [List.cons_append, List.append_assoc]
      exact yields_partOf_parenthesized hl hinner hr
  | @assignment _ name eq w hname heq hw =>
    simp only [List.length_cons] at hn
    obtain ⟨t, w', hlt, hruns, hav, ht⟩ := h w.length (by omega) s (Nat.le_refl _) hw
    exact ⟨_, w', by simp only [List.length_cons]; omega, hruns, hav,
      fun hrest => yields_partOf_assignment hname heq (ht hrest)⟩
  | @unsigned _ o w ho hw =>
    exact ⟨_, w, by simp, hw, hends w, fun _ => yields_partOf_number (.unsigned ho)⟩
  | @negative _ sign o w hsign ho hstop hw =>
    exact ⟨_, w, by simp only [List.length_cons]; omega, hw, hends w,
      fun _ => yields_partOf_number (.negative hsign ho hstop)⟩
  | @call _ name l r w hname hl hr hw =>
    -- no argument is read, since no expression starts with the closing bracket
    refine ⟨_, w, by simp only [List.length_cons]; omega, hw, hends w,
      fun _ => yields_partOf_call hname hl (yields_separated_nil ?_) hr⟩
    rw [expression_eq]
    refine refuses_expressionOf ?_
    simp [StartsPart, Token.isNumber, hr]
  | @callWith _ name l r v w more hname hl hv hcommas hmore hr hw =>
    simp only [List.length_cons, List.length_append] at hn
    obtain ⟨ts, hts⟩ := yields_arguments (h (n - 1) (by omega) []) (by omega) hcommas hmore hr
    obtain ⟨t, ht⟩ := Consumes.all (h v.length (by omega) []) (Nat.le_refl _) hv
    refine ⟨.node (callOperator name.text (t :: ts)) (t :: ts), w, ?_, hw, hends w,
      @fun rest _ => ?_⟩
    · simp only [List.length_cons, List.length_append]
      omega
    · have hfirst := ht (stops_arguments (w ++ rest) hcommas hr)
      rw [List.cons_append, List.cons_append, List.append_assoc, List.append_assoc]
      exact yields_partOf_call hname hl (yields_separated_cons hfirst (hts _)) hr
  | @name _ name w hname hw =>
    refine ⟨_, w, by simp, hw, hends w, @fun rest hrest => yields_partOf_name hname ?_⟩
    -- the name is no call and no assignment: the levels take no `=` and no `(` after it
    have hnext : Avoids [.equals, .openParen] (w ++ rest) :=
      hw.avoids (hrest.mono (by simp)) (by decide)
    intro o ho
    exact ⟨hnext o ho .equals (by simp), hnext o ho .openParen (by simp)⟩

/-- After an operand an exponent is taken, if there is one, and no other after it. -/
theorem consumes_power {c : Bool}
    (h : ∀ s, Consumes (part : Parser (Tree α)) n s s []) :
    Consumes (power : Parser (Tree α)) n (⟨c, true⟩ :: s) (⟨c, false⟩ :: s) [] := by
  intro w hn hw
  obtain ⟨t, v, hlt, hruns, -, hyields⟩ := h _ hn hw
  have hends : ∀ v, Avoids [] v := fun v o _ mark hmark => nomatch hmark
  by_cases hcaret : Avoids [.caret] v
  · refine ⟨t, v, hlt, ?_, hends v, fun hrest => yields_powerOf_part (hyields hrest) fun o ho =>
      hcaret.append_stops (by decide) hrest o ho .caret (by simp)⟩
    -- only the caret tells a base from a finished power
    refine hruns.change hcaret fun mark hmark => ?_
    cases c <;> cases mark <;> first | rfl | exact (hmark (by decide)).elim
  · cases hruns with
    | stop => exact (hcaret avoids_nil).elim
    | attach ho hu hv =>
      cases List.mem_singleton.1 (mem_of_not_avoids ho hcaret)
      cases hu
      rw [List.length_cons] at hlt
      obtain ⟨t', w', hlt', hruns', -, hyields'⟩ := h _ (by omega) hv
      exact ⟨_, w', by omega, hruns', hends w',
        fun hrest => yields_powerOf_raised (hyields hrest) ho (hyields' hrest)⟩

/-- The operators that an expression at its innermost level takes before comparisons. -/
def joinMarks : List Punct := [.plus, .minus, .star, .slash]

theorem consumes_sum {c : Bool} (h : ∀ s, Consumes (part : Parser (Tree α)) n s s []) :
    Consumes (sum : Parser (Tree α)) n (⟨c, true⟩ :: s) (⟨c, false⟩ :: s) joinMarks :=
  consumes_chain (consumes_chain (consumes_power h) multiplicative?_accepts) additive?_accepts

/-- Past a sum with no comparison to come, the operators are left to the levels outside. -/
theorem Runs.leave {c : Bool} (h : Runs .operator (⟨c, false⟩ :: s) w)
    (hav : Avoids joinMarks w) (hc : c = true → Avoids [.less, .greater, .tilde] w) :
    Runs .operator s w := by
  cases c with
  | false =>
    refine h.change hav fun mark hmark => ?_
    cases mark <;> first | rfl | exact (hmark (by decide)).elim
  | true =>
    refine h.change (hav.append (hc rfl)) fun mark hmark => ?_
    cases mark <;> first | rfl | exact (hmark (by decide)).elim

/-- Where none of the three marks comes there is no comparison. -/
theorem relation?_of_avoids (h : Avoids [.less, .greater, .tilde] w) :
    ∀ o ∈ w.head?, relation? o = none := by
  intro o ho
  cases hr : relation? o with
  | none => rfl
  | some r =>
    have hk := relation?_eq_some hr
    refine (h o ho r.mark ?_ hk).elim
    cases r <;> decide

/-- Each of the three marks is that of a comparison. -/
theorem relation?_of_kind {o : Token} {mark : Punct} (ho : o.kind = .punct mark)
    (hmark : mark ∈ [Punct.less, .greater, .tilde]) :
    ∃ r : Relation, relation? o = some r ∧ mark = r.mark := by
  simp only [List.mem_cons, List.not_mem_nil, or_false] at hmark
  rcases hmark with rfl | rfl | rfl
  · exact ⟨.less, relation?_of_mark ho, rfl⟩
  · exact ⟨.more, relation?_of_mark ho, rfl⟩
  · exact ⟨.equal, relation?_of_mark ho, rfl⟩

/-- The parser for expressions reads all that its innermost level takes. -/
theorem consumes_expression (n : Nat) (s : List Level) :
    Consumes (expression : Parser (Tree α)) n (fresh :: s) s [] := by
  induction n using Nat.strongRecOn generalizing s with
  | ind n ih =>
    -- a part holds expressions only in brackets, after fewer tokens
    have hpart : ∀ s, Consumes (part : Parser (Tree α)) n s s [] := fun s => consumes_part ih
    intro w hn hw
    have hends : ∀ v, Avoids [] v := fun v o _ mark hmark => nomatch hmark
    obtain ⟨t, v, hlt, hruns, hav, hyields⟩ := consumes_sum hpart hn hw
    rw [expression_eq]
    by_cases hrel : Avoids [.less, .greater, .tilde] v
    · refine ⟨t, v, hlt, hruns.leave hav fun _ => hrel, hends v, fun hrest => ?_⟩
      exact yields_expressionOf_sum (hyields hrest)
        (relation?_of_avoids (hrel.append_stops (by decide) hrest))
    · cases hruns with
      | stop => exact (hrel avoids_nil).elim
      | @attach _ u mark o v ho hu hv =>
        have hmark : mark ∈ [Punct.less, .greater, .tilde] := mem_of_not_avoids ho hrel
        obtain ⟨r, hr, rfl⟩ := relation?_of_kind ho hmark
        rw [attach_relation] at hu
        cases hu
        rw [List.length_cons] at hlt
        obtain ⟨t', w', hlt', hruns', hav', hyields'⟩ :=
          consumes_sum (c := false) hpart (by omega) hv
        -- one comparison is all that a level takes, so a second one is left outside
        refine ⟨.node (.relation r) [t, t'], w', by omega, hruns'.leave hav' (fun hc => nomatch hc),
          hends w', fun hrest => ?_⟩
        exact yields_expressionOf_comparison (hyields hrest) hr (hyields' hrest)

end Fluxion.Grammar

namespace Fluxion.Phrase

open Fluxion.Parser Fluxion.Grammar

variable {α : Type} [Literal α]

/-- Every expression of the grammar is read whole, and as the same tree, wherever nothing goes on
with it. -/
theorem Expression.yields {w : List Token} {t : Tree α} (h : Expression w t) :
    ∃ t' : Tree α, ∀ {rest : List Token}, Stops rest → Yields expression (w ++ rest) t' rest := by
  have hruns := h.runs (Runs.stop (s := []))
  rw [List.append_nil] at hruns
  exact Consumes.all (consumes_expression w.length []) (Nat.le_refl _) hruns

end Fluxion.Phrase

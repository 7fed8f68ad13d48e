import Fluxion.Proofs.Grammar.Lookahead
import Mathlib.Data.List.Forall2

/-!
# Lists of tokens that are read alike

A parser sees of a token its class and its text, and of two tokens in a row whether a minus sign
ends where a number starts. On lists of tokens that are the same in this, every production does the
same (`Related`): it yields the same value, or it fails for the same reason at tokens that stand for
one another, after the same failures. This holds of any correspondence between lists, and all ways
of putting parsers together keep it. No production reads on behind the end mark or behind a name
that is too long, so a correspondence need not reach further than the first of those.
-/

namespace Fluxion

/-- A name of more bytes than an identifier may have. -/
def Token.IsLongName (o : Token) : Prop := o.kind = .name ∧ maxNameBytes < o.text.utf8ByteSize

/-- No production reads on behind the token. -/
def Token.IsBarrier (o : Token) : Prop := o.kind = .punct .dollar ∨ o.IsLongName

/-- What is seen of a token by itself. -/
def Token.face (o : Token) : Kind × String := (o.kind, o.text)

/-- Only the end mark and names stop a production. -/
theorem Token.not_isBarrier_of_kind {o : Token} (hdollar : o.kind ≠ .punct .dollar)
    (hname : o.kind ≠ .name) : ¬ o.IsBarrier :=
  fun h => h.elim hdollar fun h => hname h.1

/-- A relation between lists of tokens that no production tells apart. -/
structure Correspondence where
  Lists : List Token → List Token → Prop
  head : ∀ {ts ts' : List Token}, Lists ts ts' → ts.head?.map Token.face = ts'.head?.map Token.face
  tail : ∀ {o o' : Token} {ts ts' : List Token}, Lists (o :: ts) (o' :: ts') → ¬ o.IsBarrier →
    Lists ts ts'
  shorter : ∀ {ts ts' us us' : List Token}, Lists ts ts' → Lists us us' →
    (us.length < ts.length ↔ us'.length < ts'.length)
  signed : ∀ {o o' u u' : Token} {ts ts' : List Token}, Lists (o :: u :: ts) (o' :: u' :: ts') →
    o.kind = .punct .minus → u.isNumber = true → (o.stop = u.start ↔ o'.stop = u'.start)

namespace Correspondence

variable (c : Correspondence)

/-- The tokens stand for one another. -/
def Tokens (o o' : Token) : Prop := ∃ ts ts', c.Lists (o :: ts) (o' :: ts')

/-- The same requirement, where one list and the other have come to the same place. -/
def Failures (f f' : Failure) : Prop :=
  f.expected = f'.expected ∧ ∃ ts ts', c.Lists ts ts' ∧ f.found = ts.head? ∧ f'.found = ts'.head?

/-- The same reason, at the same place. -/
inductive Errors : SyntaxError → SyntaxError → Prop
  | unexpected {f f' : Failure} : c.Failures f f' → Errors (.unexpected f) (.unexpected f')
  | nameTooLong {o o' : Token} :
      c.Tokens o o' → o.IsLongName → Errors (.nameTooLong o) (.nameTooLong o')

/-- Two runs that went the same way, with values that `R` relates. -/
inductive Outcomes {β : Type} (R : β → β → Prop) : Outcome β → Outcome β → Prop
  | ok {b b' : β} {rest rest' : List Token} {fs fs' : List Failure} :
      R b b' → c.Lists rest rest' → List.Forall₂ c.Failures fs fs' →
      Outcomes R ⟨.ok b, rest, fs⟩ ⟨.ok b', rest', fs'⟩
  | error {e e' : SyntaxError} {rest rest' : List Token} {fs fs' : List Failure} :
      c.Errors e e' → List.Forall₂ c.Failures fs fs' →
      Outcomes R ⟨.error e, rest, fs⟩ ⟨.error e', rest', fs'⟩

variable {c : Correspondence} {o o' : Token} {ts ts' : List Token}

/-- Both lists are at their end, or both go on with tokens that look the same. -/
theorem Lists.cases (h : c.Lists ts ts') : ts = [] ∧ ts' = [] ∨
    ∃ o us o' us', ts = o :: us ∧ ts' = o' :: us' ∧ o.kind = o'.kind ∧ o.text = o'.text := by
  have hhead := c.head h
  cases ts with
  | nil =>
    cases ts' with
    | nil => exact Or.inl ⟨rfl, rfl⟩
    | cons o' us' => cases hhead
  | cons o us =>
    cases ts' with
    | nil => cases hhead
    | cons o' us' =>
      obtain ⟨hkind, htext⟩ := Prod.mk.inj (Option.some.inj hhead)
      exact Or.inr ⟨o, us, o', us', rfl, rfl, hkind, htext⟩

/-- Tokens that stand for one another look the same. -/
theorem Tokens.face_eq (h : c.Tokens o o') : o.face = o'.face := by
  obtain ⟨ts, ts', h⟩ := h
  exact Option.some.inj (c.head h)

theorem Tokens.kind_eq (h : c.Tokens o o') : o.kind = o'.kind := (Prod.mk.inj h.face_eq).1

theorem Tokens.text_eq (h : c.Tokens o o') : o.text = o'.text := (Prod.mk.inj h.face_eq).2

/-- Errors for the same reason are both fatal or both not. -/
theorem Errors.isFatal_eq {e e' : SyntaxError} (h : c.Errors e e') : e.isFatal = e'.isFatal := by
  cases h <;> rfl

namespace Outcomes

variable {β : Type} {R S : β → β → Prop} {out out' : Outcome β} {fs fs' : List Failure}

theorem mono (h : c.Outcomes R out out') (hRS : ∀ b b', R b b' → S b b') :
    c.Outcomes S out out' := by
  cases h with
  | ok hb hrest hfs => exact .ok (hRS _ _ hb) hrest hfs
  | error he hfs => exact .error he hfs

/-- Related failures can be put before related outcomes. -/
theorem after (h : c.Outcomes R out out') (hfs : List.Forall₂ c.Failures fs fs') :
    c.Outcomes R (out.after fs) (out'.after fs') := by
  cases h with
  | ok hb hrest hfs' => exact .ok hb hrest (List.rel_append hfs' hfs)
  | error he hfs' => exact .error he (List.rel_append hfs' hfs)

/-- To fail at the next token is the same on lists that correspond, whatever is left behind. -/
theorem failing {expected : Expectation} {rest rest' : List Token} (h : c.Lists ts ts') :
    c.Outcomes R (Parser.failing expected ts.head? rest)
      (Parser.failing expected ts'.head? rest') :=
  have hfailure : c.Failures ⟨expected, ts.head?⟩ ⟨expected, ts'.head?⟩ :=
    ⟨rfl, ts, ts', h, rfl, rfl⟩
  .error (.unexpected hfailure) (.cons hfailure .nil)

end Outcomes

end Correspondence

namespace Parser

open Correspondence

/-- On corresponding lists the parsers do the same, and yield values that `R` relates. -/
def Related (c : Correspondence) {β : Type} (R : β → β → Prop) (p p' : Parser β) : Prop :=
  ∀ ⦃ts ts' : List Token⦄, c.Lists ts ts' → c.Outcomes R (p ts) (p' ts')

variable {c : Correspondence} {β γ : Type} {R : β → β → Prop} {S : γ → γ → Prop}
variable {p p' q q' : Parser β} {f f' : β → Parser γ} {ts ts' : List Token}

/-! ## Single steps -/

/-- A reader of one token does the same if it accepts both next tokens or neither. It has to refuse
the tokens that nothing reads on behind, since the lists need not correspond there. -/
theorem outcomes_satisfy {expected : Expectation} {accept accept' : Token → Option β}
    (h : c.Lists ts ts')
    (haccept : ∀ o ∈ ts.head?, ∀ o' ∈ ts'.head?, c.Tokens o o' →
      Option.Rel R (accept o) (accept' o'))
    (hbarrier : ∀ o, o.IsBarrier → accept o = none) :
    c.Outcomes R (satisfy expected accept ts) (satisfy expected accept' ts') := by
  rcases h.cases with ⟨rfl, rfl⟩ | ⟨o, us, o', us', rfl, rfl, -⟩
  · exact .failing h
  · have hrel := haccept o rfl o' rfl ⟨us, us', h⟩
    -- tokens that correspond are accepted by both or by neither
    cases ho : accept o with
    | none =>
      cases ho' : accept' o' with
      | none =>
        simp only [satisfy, ho, ho']
        exact .failing h
      | some b' =>
        rw [ho, ho'] at hrel
        cases hrel
    | some b =>
      cases ho' : accept' o' with
      | none =>
        rw [ho, ho'] at hrel
        cases hrel
      | some b' =>
        rw [ho, ho'] at hrel
        cases hrel with
        | some hb =>
          have hread : ¬ o.IsBarrier := fun hbar => by simp [hbarrier o hbar] at ho
          simp only [satisfy, ho, ho']
          exact .ok hb (c.tail h hread) .nil

namespace Related

theorem pure {b b' : β} (hb : R b b') : Related c R (Pure.pure b) (Pure.pure b') :=
  fun _ _ h => .ok hb h .nil

theorem refuse (expected : Expectation) :
    Related c R (Parser.refuse expected) (Parser.refuse expected) :=
  fun _ _ h => .failing h

/-- A reader that does not tell apart tokens that stand for one another. -/
theorem satisfy {expected : Expectation} {accept accept' : Token → Option β}
    (haccept : ∀ o o', c.Tokens o o' → Option.Rel R (accept o) (accept' o'))
    (hbarrier : ∀ o, o.IsBarrier → accept o = none) :
    Related c R (Parser.satisfy expected accept) (Parser.satisfy expected accept') :=
  fun _ _ h => outcomes_satisfy h (fun o _ o' _ => haccept o o') hbarrier

end Related

/-! ## One after another -/

/-- One parser after another, on two lists: the second parsers have to be related only behind what
the first have read. -/
theorem outcomes_bind (hp : c.Outcomes R (p ts) (p' ts'))
    (hf : ∀ b b' rest rest', Yields p ts b rest → Yields p' ts' b' rest' → R b b' →
      c.Lists rest rest' → c.Outcomes S (f b rest) (f' b' rest')) :
    c.Outcomes S ((p >>= f) ts) ((p' >>= f') ts') := by
  cases hout : p ts with
  | mk result rest fs =>
    cases hout' : p' ts' with
    | mk result' rest' fs' =>
      rw [hout, hout'] at hp
      cases hp with
      | ok hb hrest hfs =>
        rw [bind_of_ok hout, bind_of_ok hout']
        exact (hf _ _ _ _ ⟨fs, hout⟩ ⟨fs', hout'⟩ hb hrest).after hfs
      | error he hfs =>
        rw [bind_of_error hout, bind_of_error hout']
        exact .error he hfs

namespace Related

/-- One parser after another, where the second may depend on the value of the first. -/
theorem bind (hp : Related c R p p') (hf : ∀ b b', R b b' → Related c S (f b) (f' b')) :
    Related c S (p >>= f) (p' >>= f') :=
  fun _ _ h => outcomes_bind (hp h) fun b b' _ _ _ _ hb hrest => hf b b' hb hrest

/-! ## Attempts and alternatives -/

/-- Where a try fails, both are back where they started. -/
theorem attempt (hp : Related c R p p') : Related c R (attempt p) (attempt p') := by
  intro ts ts' h
  have hrun := hp h
  cases hout : p ts with
  | mk result rest fs =>
    cases hout' : p' ts' with
    | mk result' rest' fs' =>
      rw [hout, hout'] at hrun
      cases hrun with
      | ok hb hrest hfs =>
        simp only [Parser.attempt, hout, hout']
        exact .ok hb hrest hfs
      | error he hfs =>
        simp only [Parser.attempt, hout, hout']
        exact .error he hfs

/-- The second alternatives are tried on both lists or on neither, as the errors are both fatal or
both not. -/
theorem orElse (hp : Related c R p p') (hq : Related c R q q') :
    Related c R (Parser.orElse p q) (Parser.orElse p' q') := by
  intro ts ts' h
  have hrun := hp h
  cases hout : p ts with
  | mk result rest fs =>
    cases hout' : p' ts' with
    | mk result' rest' fs' =>
      rw [hout, hout'] at hrun
      cases hrun with
      | ok hb hrest hfs =>
        simp only [Parser.orElse, hout, hout']
        exact .ok hb hrest hfs
      | error he hfs =>
        simp only [Parser.orElse, hout, hout']
        cases he with
        | unexpected hf => exact (hq h).after hfs
        | nameTooLong ho hlong => exact .error (.nameTooLong ho hlong) hfs

/-- Both are there, with related values, or both are left out. -/
theorem optional (hp : Related c R p p') :
    Related c (Option.Rel R) (Parser.optional p) (Parser.optional p') := by
  rw [optional_eq, optional_eq]
  exact (hp.bind fun b b' hb => .pure (.some hb)).orElse (.pure .none)

/-! ## Repetition -/

/-- The values are related one by one. The induction is on the length of the first list; a round
takes tokens on both lists or on neither. -/
theorem many (hp : Related c R p p') :
    Related c (List.Forall₂ R) (Parser.many p) (Parser.many p') := by
  intro ts ts' h
  induction hlen : ts.length using Nat.strongRecOn generalizing ts ts' with
  | ind n ih =>
    subst hlen
    have hrun := hp.optional h
    cases hout : Parser.optional p ts with
    | mk result rest fs =>
      cases hout' : Parser.optional p' ts' with
      | mk result' rest' fs' =>
        rw [hout, hout'] at hrun
        cases hrun with
        | error he hfs =>
          rw [many_of_error hout, many_of_error hout']
          exact .error he hfs
        | ok hfound hrest hfs =>
          cases hfound with
          | none =>
            rw [many_of_none hout, many_of_none hout']
            exact .ok .nil hrest hfs
          | @some b b' hb =>
            -- one list has got shorter exactly if the other has, so both repetitions go on or stop
            by_cases hlt : rest.length < ts.length
            · rw [many_of_some hout hlt, many_of_some hout' ((c.shorter h hrest).1 hlt)]
              have hmore := ih _ hlt hrest rfl
              refine Outcomes.after (outcomes_bind hmore ?_) hfs
              exact fun bs bs' _ _ _ _ hbs hlists => .ok (.cons hb hbs) hlists .nil
            · rw [many_of_some_last hout hlt,
                many_of_some_last hout' (mt (c.shorter h hrest).2 hlt)]
              exact .ok (.cons hb .nil) hrest hfs

/-- Values with separators, where neither the separators nor the values are told apart. -/
theorem separated {separator separator' : Parser γ} (hseparator : Related c S separator separator')
    (hp : Related c R p p') :
    Related c (List.Forall₂ R) (Parser.separated separator p) (Parser.separated separator' p') := by
  refine hp.optional.bind fun found found' hfound => ?_
  cases hfound with
  | none => exact .pure .nil
  | some hb =>
    have hmore := (hseparator.attempt.bind fun _ _ _ => hp).many
    exact hmore.bind fun bs bs' hbs => .pure (.cons hb hbs)

/-! ## Recursion -/

/-- To be related to itself it is enough for a parser to agree, below any length, with one that is.
-/
theorem of_agreeBelow (h : ∀ n, ∃ q, Related c R q q ∧ Grammar.AgreeBelow n p q) :
    Related c R p p := by
  intro ts ts' hlists
  obtain ⟨q, hq, hagree⟩ := h (ts.length + ts'.length + 1)
  rw [hagree ts (by omega), hagree ts' (by omega)]
  exact hq hlists

/-! ## Values that are the same -/

/-- One parser after another, where the first yields the same value on both lists. -/
theorem bind_eq (hp : Related c Eq p p) (hf : ∀ b, Related c S (f b) (f' b)) :
    Related c S (p >>= f) (p >>= f') :=
  hp.bind fun b _ hb => hb ▸ hf b

theorem many_eq (hp : Related c Eq p p) : Related c Eq (Parser.many p) (Parser.many p) :=
  fun _ _ h => (hp.many h).mono fun _ _ hbs => List.forall₂_eq_eq_eq ▸ hbs

theorem optional_eq (hp : Related c Eq p p) :
    Related c Eq (Parser.optional p) (Parser.optional p) :=
  fun _ _ h => (hp.optional h).mono fun _ _ hfound => by cases hfound <;> simp_all

end Related

end Parser

/-! ## The grammar -/

namespace Grammar

open Fluxion.Parser Correspondence

variable {c : Correspondence} {α : Type} {q : Parser (Tree α)} {expected : Expectation}
variable {mark : Punct} {word : Keyword}

/-- A token of a given kind is found on both lists or on neither. -/
theorem related_ofKind {kind : Kind} (hkind : kind ≠ .punct .dollar) (hname : kind ≠ .name) :
    Related c c.Tokens (ofKind expected kind) (ofKind expected kind) := by
  refine .satisfy (fun o o' ho => ?_) fun o hbarrier => if_neg ?_
  · rw [← ho.kind_eq]
    by_cases hk : o.kind = kind
    · rw [if_pos hk, if_pos hk]
      exact .some ho
    · rw [if_neg hk, if_neg hk]
      exact .none
  · rintro rfl
    exact Token.not_isBarrier_of_kind hkind hname hbarrier

/-- A mark other than the end mark is found on both lists or on neither. -/
theorem related_punct (hmark : mark ≠ .dollar) : Related c c.Tokens (punct mark) (punct mark) :=
  related_ofKind (by simpa using hmark) (by simp)

theorem related_keyword : Related c c.Tokens (keyword word) (keyword word) :=
  related_ofKind (by simp) (by simp)

/-- A name is taken as a word. -/
theorem attempt_word_of_name {o : Token} {us : List Token} (h : o.kind = .name) :
    attempt Grammar.word (o :: us) = ⟨.ok o, us, []⟩ := by
  simp only [attempt, Grammar.word, ofKind, satisfy, if_pos h]

/-- Any other token is left where it is. -/
theorem attempt_word_of_not_name {o : Token} {us : List Token} (h : o.kind ≠ .name) :
    attempt Grammar.word (o :: us) = failing .identifier (some o) (o :: us) := by
  simp only [attempt, Grammar.word, ofKind, satisfy, if_neg h, failing]

/-- A name is read on behind only if it is not too long. -/
theorem related_identifier : Related c c.Tokens identifier identifier := by
  intro ts ts' h
  rcases h.cases with ⟨rfl, rfl⟩ | ⟨o, us, o', us', rfl, rfl, hkind, htext⟩
  · exact .failing h
  · have htokens : c.Tokens o o' := ⟨us, us', h⟩
    by_cases hname : o.kind = .name
    · have hname' : o'.kind = .name := hkind ▸ hname
      rw [identifier, bind_of_ok (attempt_word_of_name hname),
        bind_of_ok (attempt_word_of_name hname'), ← htext]
      -- the length is that of the same text, so both names are too long or neither is
      by_cases hlong : maxNameBytes < o.text.utf8ByteSize
      · rw [if_pos hlong, if_pos hlong]
        exact .error (.nameTooLong htokens ⟨hname, hlong⟩) .nil
      · rw [if_neg hlong, if_neg hlong]
        have hread : ¬ o.IsBarrier := by
          rintro (hdollar | hbarrier)
          · simp [hname] at hdollar
          · exact hlong hbarrier.2
        exact .ok htokens (c.tail h hread) .nil
    · have hname' : o'.kind ≠ .name := hkind ▸ hname
      rw [identifier, bind_of_error (attempt_word_of_not_name hname),
        bind_of_error (attempt_word_of_not_name hname')]
      exact .failing h

/-- The operators of a level are taken by the kinds of tokens, and none is written `$`. -/
theorem related_operator {β : Type} {mark : β → Punct} {operators : List β}
    (hdollar : ∀ b ∈ operators, mark b ≠ .dollar) :
    Related c Eq (satisfy expected (marked? mark operators))
      (satisfy expected (marked? mark operators)) := by
  refine .satisfy (fun o o' ho => ?_) fun o hbarrier => marked?_eq_none fun b hb hkind => ?_
  · rw [marked?_congr ho.kind_eq]
    cases marked? mark operators o' with
    | none => exact .none
    | some b => exact .some rfl
  · rcases hbarrier with hk | ⟨hk, -⟩
    · exact hdollar b hb (Kind.punct.inj (hkind.symm.trans hk))
    · rw [hk] at hkind
      cases hkind

/-- Operands with operators between them, for a level none of whose operators is the end mark. -/
theorem related_chain {ops : List NaryOp} (hdollar : ∀ op ∈ ops, op.mark ≠ .dollar)
    (hq : Related c Eq q q) :
    Related c Eq (chain expected (marked? NaryOp.mark ops) q)
      (chain expected (marked? NaryOp.mark ops) q) := by
  refine hq.attempt.bind_eq fun first => Related.bind_eq (.many_eq ?_) fun others => .pure rfl
  exact (related_operator hdollar).bind_eq fun op => hq.bind_eq fun t => .pure rfl

theorem related_parenthesizedOf (hq : Related c Eq q q) :
    Related c Eq (parenthesizedOf q) (parenthesizedOf q) := by
  refine (related_punct (by simp)).attempt.bind fun _ _ _ => hq.bind_eq fun t => ?_
  exact (related_punct (by simp)).attempt.bind fun _ _ _ => .pure rfl

/-- The names on both lists have the same text, so the variable that is set is the same. -/
theorem related_assignmentOf (hq : Related c Eq q q) :
    Related c Eq (assignmentOf q) (assignmentOf q) := by
  refine related_identifier.attempt.bind fun target target' htarget => ?_
  refine (related_punct (by simp)).attempt.bind fun _ _ _ => hq.bind_eq fun t => .pure ?_
  rw [htarget.text_eq]

theorem related_separated (hq : Related c Eq q q) :
    Related c Eq (separated (punct .comma) q) (separated (punct .comma) q) :=
  fun _ _ h => (Related.separated (related_punct (by simp)) hq h).mono
    fun _ _ hts => List.forall₂_eq_eq_eq ▸ hts

/-- The operator of a call depends on the text of the name and on how many arguments there are. -/
theorem related_callOf (hq : Related c Eq q q) : Related c Eq (callOf q) (callOf q) := by
  refine related_identifier.attempt.bind fun name name' hname => ?_
  refine (related_punct (by simp)).attempt.bind fun _ _ _ => ?_
  refine (related_separated hq).bind_eq fun arguments => ?_
  refine (related_punct (by simp)).attempt.bind fun _ _ _ => .pure ?_
  rw [hname.text_eq]

theorem related_blockOf (hq : Related c Eq q q) : Related c Eq (blockOf q) (blockOf q) := by
  refine (related_punct (by simp)).attempt.bind fun _ _ _ => ?_
  refine (hq.many_eq.bind_eq fun ts => .pure rfl).bind_eq fun body => ?_
  exact (related_punct (by simp)).attempt.bind fun _ _ _ => .pure rfl

theorem related_closed (hq : Related c Eq q q) : Related c Eq (closed q) (closed q) :=
  hq.bind_eq fun _ => (related_punct (by simp)).attempt.bind fun _ _ _ => .pure rfl

theorem related_nameLeaf : Related c Eq (nameLeaf : Parser (Tree α)) nameLeaf :=
  related_identifier.bind fun _ _ hname => .pure (congrArg Tree.var hname.text_eq)

variable [Literal α]

/-- Digits with the sign that was read before them, or with none. -/
theorem outcomes_digits {minus minus' : Option Token} {ts ts' : List Token} (h : c.Lists ts ts')
    (hsign : minus.isSome = minus'.isSome)
    (hjoined : ∀ o ∈ ts.head?, ∀ o' ∈ ts'.head?, o.isNumber = true →
      (minus.all fun sign => sign.stop == o.start) = minus'.all fun sign => sign.stop == o'.start) :
    c.Outcomes (fun n n' => n.value = n'.value)
      (satisfy .number (fun token =>
        if token.isNumber && minus.all fun sign => sign.stop == token.start then
          some (Number.ofToken (α := α) minus token)
        else none) ts)
      (satisfy .number (fun token =>
        if token.isNumber && minus'.all fun sign => sign.stop == token.start then
          some (Number.ofToken (α := α) minus' token)
        else none) ts') := by
  refine outcomes_satisfy h (fun o ho o' ho' htokens => ?_) fun o hbarrier => if_neg ?_
  · have hnumber : o'.isNumber = o.isNumber := by
      rw [Token.isNumber, Token.isNumber, htokens.kind_eq]
    rw [hnumber]
    by_cases hdigits : o.isNumber = true
    · rw [← hjoined o ho o' ho' hdigits]
      split
      · refine .some ?_
        cases minus <;> cases minus' <;> simp_all [Number.ofToken, htokens.text_eq]
      · exact .none
    · simp only [Bool.eq_false_iff.2 hdigits, Bool.false_and, Bool.false_eq_true, if_false]
      exact .none
  · rintro hdigits
    rw [Bool.and_eq_true] at hdigits
    rcases hbarrier with hk | ⟨hk, -⟩ <;> simp [Token.isNumber, hk] at hdigits

/-- The value of a number depends on its text, and on whether a sign stands right before it. -/
theorem related_constant : Related c Eq (constant : Parser (Tree α)) constant := by
  have hnumber : Related c (fun n n' : Number α => n.value = n'.value) number number := by
    intro ts ts' h
    refine outcomes_bind ((related_punct (by simp)).optional h) ?_
    intro minus minus' rest rest' hminus hminus' hrel hrest
    cases hrel with
    | none => exact outcomes_digits hrest rfl fun _ _ _ _ _ => rfl
    | @some sign sign' hsign =>
      obtain ⟨rfl, hkind⟩ := yields_punct.1 (yields_optional_some.1 hminus)
      obtain ⟨rfl, -⟩ := yields_punct.1 (yields_optional_some.1 hminus')
      refine outcomes_digits hrest rfl fun o ho o' ho' hdigits => ?_
      obtain ⟨us, rfl⟩ := List.head?_eq_some_iff.1 ho
      obtain ⟨us', rfl⟩ := List.head?_eq_some_iff.1 ho'
      have hsigned := c.signed h hkind hdigits
      rw [Option.all_some, Option.all_some, Bool.eq_iff_iff, beq_iff_eq, beq_iff_eq]
      exact hsigned
  exact hnumber.bind fun n n' hn => .pure (congrArg Tree.num hn)

/-- None of the alternatives for an operand tells the lists apart. -/
theorem related_partOf (hq : Related c Eq q q) : Related c Eq (partOf q) (partOf q) :=
  (related_parenthesizedOf hq).orElse <| (related_assignmentOf hq).orElse <|
    related_constant.orElse <| (related_callOf hq).orElse <|
    related_nameLeaf.orElse (.refuse _)

theorem related_powerOf (hq : Related c Eq q q) : Related c Eq (powerOf q) (powerOf q) := by
  refine (related_partOf hq).attempt.bind_eq fun base => ?_
  refine Related.bind_eq (.optional_eq ?_) ?_
  · exact (related_punct (by simp)).attempt.bind fun _ _ _ => related_partOf hq
  · rintro (_ | exponent)
    · exact .pure rfl
    · exact .pure rfl

theorem related_productOf (hq : Related c Eq q q) : Related c Eq (productOf q) (productOf q) :=
  related_chain (by decide) (related_powerOf hq)

theorem related_sumOf (hq : Related c Eq q q) : Related c Eq (sumOf q) (sumOf q) :=
  related_chain (by decide) (related_productOf hq)

theorem related_expressionOf (hq : Related c Eq q q) :
    Related c Eq (expressionOf q) (expressionOf q) := by
  refine (related_sumOf hq).attempt.bind_eq fun left => ?_
  refine Related.bind_eq (.optional_eq (Related.bind_eq (related_operator (by decide)) ?_)) ?_
  · exact fun r => (related_sumOf hq).bind_eq fun t => .pure rfl
  · rintro (_ | ⟨r, t⟩)
    · exact .pure rfl
    · exact .pure rfl

/-- Expressions are the same on lists that correspond. -/
theorem related_expression : Related c Eq (expression : Parser (Tree α)) expression :=
  fix_induction (P := fun p => Related c Eq p p) (fun _ => reads_expressionOf) expressionOf_congr
    (fun _ => Related.of_agreeBelow) (.refuse _) fun _ => related_expressionOf

theorem related_condition : Related c Eq (condition : Parser (Tree α)) condition :=
  related_parenthesizedOf related_expression

/-- There is a second block on both lists or on neither. -/
theorem related_ifOf (hq : Related c Eq q q) : Related c Eq (ifOf q) (ifOf q) := by
  refine related_keyword.attempt.bind fun _ _ _ => related_condition.bind_eq fun cond => ?_
  refine (related_blockOf hq).bind_eq fun yes => Related.bind_eq (.optional_eq ?_) fun no =>
    .pure rfl
  exact related_keyword.attempt.bind fun _ _ _ => related_blockOf hq

theorem related_whileOf (hq : Related c Eq q q) : Related c Eq (whileOf q) (whileOf q) := by
  refine related_keyword.attempt.bind fun _ _ _ => related_expression.bind_eq fun cond => ?_
  exact (related_blockOf hq).bind_eq fun body => .pure rfl

theorem related_forOf (hq : Related c Eq q q) : Related c Eq (forOf q) (forOf q) := by
  have hsemicolon : Related c c.Tokens (attempt (punct .semicolon)) (attempt (punct .semicolon)) :=
    (related_punct (by simp)).attempt
  refine related_keyword.attempt.bind fun _ _ _ => ?_
  refine (related_punct (by simp)).attempt.bind fun _ _ _ => ?_
  refine related_expression.bind_eq fun first => hsemicolon.bind fun _ _ _ => ?_
  refine related_expression.bind_eq fun cond => hsemicolon.bind fun _ _ _ => ?_
  refine related_expression.bind_eq fun step => ?_
  refine (related_punct (by simp)).attempt.bind fun _ _ _ => ?_
  exact (related_blockOf hq).bind_eq fun body => .pure rfl

theorem related_statementOf (hq : Related c Eq q q) :
    Related c Eq (statementOf q) (statementOf q) := by
  have hreturning : Related c Eq (returning : Parser (Tree α)) returning :=
    related_keyword.attempt.bind fun _ _ _ => related_condition.bind_eq fun value => .pure rfl
  exact (related_ifOf hq).orElse <| (related_whileOf hq).orElse <|
    (related_closed hreturning).orElse <| (related_forOf hq).orElse
    (related_closed related_expression).attempt

/-- Statements are the same on lists that correspond, with all the blocks within them. -/
theorem related_statement : Related c Eq (statement : Parser (Tree α)) statement :=
  fix_induction (P := fun p => Related c Eq p p) (fun _ => reads_statementOf) statementOf_congr
    (fun _ => Related.of_agreeBelow) (.refuse _) fun _ => related_statementOf

/-- The name and the parameters of a definition have the same texts on both lists. -/
theorem related_definition : Related c Eq (definition : Parser (Tree α)) definition := by
  refine related_keyword.attempt.bind fun _ _ _ => ?_
  refine related_identifier.attempt.bind fun name name' hname => ?_
  refine (related_punct (by simp)).attempt.bind fun _ _ _ => ?_
  refine (Related.separated (related_punct (by simp)) related_identifier.attempt).bind ?_
  intro parameters parameters' hparameters
  refine (related_punct (by simp)).attempt.bind fun _ _ _ => ?_
  refine (related_blockOf related_statement).bind_eq fun body => .pure ?_
  have hnames : parameters.map (fun p => (Tree.var p.text : Tree α)) =
      parameters'.map fun p => .var p.text := by
    induction hparameters with
    | nil => rfl
    | cons ho _ ih => rw [List.map_cons, List.map_cons, ih, ho.text_eq]
  rw [hnames, hname.text_eq]

/-- What a whole text is to be read as is read alike on corresponding lists. -/
theorem related_production (entry : Entry) :
    Related c Eq (entry.production : Parser (Tree α)) entry.production := by
  cases entry with
  | expression => exact related_expression
  | statements => exact related_statement.many_eq.bind_eq fun ts => .pure rfl
  | program => exact related_definition.many_eq.bind_eq fun ts => .pure rfl

end Grammar

end Fluxion

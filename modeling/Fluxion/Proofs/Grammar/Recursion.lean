import Fluxion.Proofs.Grammar.Reads

/-!
# Recursion on fewer tokens

The productions for expressions and statements call themselves only after they have read a token, so
the parser that they are given for nested phrases matters on fewer tokens only. For this reason the
guard of `Parser.fix` never bites, and the two parsers are fixed points of their bodies:
`expression_eq` and `statement_eq`.
-/

namespace Fluxion.Grammar

open Fluxion.Parser

/-- The parsers are one and the same on all lists of fewer than `n` tokens. -/
def AgreeBelow {β : Type} (n : Nat) (p p' : Parser β) : Prop := ∀ ts, ts.length < n → p ts = p' ts

section Combinators

variable {β γ : Type} {p p' q q' : Parser β} {f f' : β → Parser γ} {ts : List Token} {n : Nat}

/-- The second parsers have to agree only behind what the first have read. -/
theorem bind_congr (hp : p ts = p' ts) (hf : ∀ b rest, Yields p ts b rest → f b rest = f' b rest) :
    (p >>= f) ts = (p' >>= f') ts := by
  show Parser.andThen p f ts = Parser.andThen p' f' ts
  unfold Parser.andThen
  cases h : p ts with
  | mk result rest fs =>
    rw [← hp, h]
    cases result with
    | error e => rfl
    | ok b =>
      show (f b rest).after fs = (f' b rest).after fs
      rw [hf b rest ⟨fs, h⟩]

theorem attempt_congr (hp : p ts = p' ts) : attempt p ts = attempt p' ts := by
  unfold attempt
  rw [hp]

theorem optional_congr (hp : p ts = p' ts) : Parser.optional p ts = Parser.optional p' ts := by
  unfold Parser.optional
  rw [hp]

theorem orElse_congr (hp : p ts = p' ts) (hq : q ts = q' ts) : orElse p q ts = orElse p' q' ts := by
  unfold orElse
  rw [hp, hq]

/-- A repetition calls its parser only on ends of the list that it is given. -/
theorem many_congr (hp : AgreeBelow (n + 1) p p') (hn : ts.length ≤ n) :
    Parser.many p ts = Parser.many p' ts := by
  induction hlen : ts.length using Nat.strongRecOn generalizing ts with
  | ind m ih =>
    subst hlen
    have hopt : Parser.optional p ts = Parser.optional p' ts :=
      optional_congr (hp ts (Nat.lt_succ_of_le hn))
    rw [Parser.many, Parser.many, ← hopt]
    cases Parser.optional p ts with
    | mk result rest fs =>
      cases result with
      | error e => rfl
      | ok found =>
        cases found with
        | none => rfl
        | some b =>
          -- the next turn has fewer tokens, where the two parsers agree as well
          by_cases hlt : rest.length < ts.length
          · have hrest := ih rest.length hlt (by omega) rfl
            simp only [if_pos hlt, hrest]
          · simp only [if_neg hlt]

/-- A parser tied to itself is a fixed point of its body, if the body calls what it is given on
fewer tokens only. -/
theorem fix_eq {phrase : List Token → β → Prop} {body : Parser β → Parser β}
    (hread : ∀ q : Parser β, Reads phrase q → Reads phrase (body q))
    (hbody : ∀ {n : Nat} {q q' : Parser β}, Reads phrase q → AgreeBelow n q q' →
      AgreeBelow (n + 1) (body q) (body q')) :
    Parser.fix body = body (Parser.fix body) := by
  funext ts
  rw [fix_apply]
  refine (hbody (Reads.fix hread) ?_ ts (Nat.lt_succ_self _)).symm
  intro us hus
  exact (within_of_lt hus).symm

/-- What holds of the refusing parser, is handed on by the body and can be told from the lists of
any bounded length, holds of the parser tied to itself: on short lists that is the body applied
often enough. -/
theorem fix_induction {phrase : List Token → β → Prop} {body : Parser β → Parser β}
    {P : Parser β → Prop} (hread : ∀ q : Parser β, Reads phrase q → Reads phrase (body q))
    (hbody : ∀ {n : Nat} {q q' : Parser β}, Reads phrase q → AgreeBelow n q q' →
      AgreeBelow (n + 1) (body q) (body q'))
    (hlimit : ∀ p, (∀ n, ∃ q, P q ∧ AgreeBelow n p q) → P p)
    (hrefuse : P (refuse .expression)) (hstep : ∀ q, P q → P (body q)) :
    P (Parser.fix body) := by
  refine hlimit _ fun n => ?_
  induction n with
  | zero => exact ⟨_, hrefuse, fun _ h => absurd h (Nat.not_lt_zero _)⟩
  | succ n ih =>
    obtain ⟨q, hq, hagree⟩ := ih
    refine ⟨body q, hstep q hq, ?_⟩
    rw [fix_eq hread hbody]
    exact hbody (Reads.fix hread) hagree

/-- Behind the first value the parser is called on what is left of the tokens, which is not more. -/
theorem separated_congr {phrase : List Token → β → Prop} {separator : Parser γ}
    (hp : AgreeBelow (n + 1) p p') (hread : Reads phrase p)
    (hsep : ∀ {ts rest b}, Yields separator ts b rest → rest.length ≤ ts.length)
    (hn : ts.length ≤ n) : separated separator p ts = separated separator p' ts := by
  refine bind_congr (optional_congr (hp ts (Nat.lt_succ_of_le hn))) ?_
  intro first rest hfirst
  cases first with
  | none => rfl
  | some b =>
    obtain ⟨w, rfl, -⟩ := hread (yields_optional_some.1 hfirst)
    rw [List.length_append] at hn
    refine bind_congr (many_congr (n := n) ?_ (by omega)) (fun _ _ _ => rfl)
    intro us hus
    refine bind_congr rfl ?_
    intro o rest' ho
    have := hsep (yields_attempt.1 ho)
    exact hp rest' (by omega)

end Combinators

section Expressions

variable {α : Type} {q q' : Parser (Tree α)} {n : Nat} {ts : List Token}

open Phrase

/-- The opening mark is read before the expression, so agreement on fewer tokens is enough. -/
theorem parenthesizedOf_congr (h : AgreeBelow n q q') :
    AgreeBelow (n + 1) (parenthesizedOf q) (parenthesizedOf q') := by
  intro ts hts
  refine bind_congr rfl ?_
  intro l rest hl
  obtain ⟨rfl, -⟩ := yields_punct.1 (yields_attempt.1 hl)
  exact bind_congr (h rest (Nat.lt_of_succ_lt_succ hts)) (fun _ _ _ => rfl)

/-- Two tokens are read before the expression. -/
theorem assignmentOf_congr (h : AgreeBelow n q q') :
    AgreeBelow (n + 1) (assignmentOf q) (assignmentOf q') := by
  intro ts hts
  refine bind_congr rfl ?_
  intro name rest hname
  obtain ⟨rfl, -⟩ := yields_identifier.1 (yields_attempt.1 hname)
  refine bind_congr rfl ?_
  intro eq rest' heq
  obtain ⟨rfl, -⟩ := yields_punct.1 (yields_attempt.1 heq)
  simp only [List.length_cons] at hts
  exact bind_congr (h rest' (by omega)) (fun _ _ _ => rfl)

/-- The first operand is read from the first token on, so the chain gains no token over its
operands. -/
theorem chain_congr {operand : List Token → Tree α → Prop} {p p' : Parser (Tree α)}
    {expected : Expectation} {op? : Token → Option NaryOp} (hread : Reads operand p)
    (h : AgreeBelow (n + 1) p p') :
    AgreeBelow (n + 1) (chain expected op? p) (chain expected op? p') := by
  intro ts hts
  refine bind_congr (attempt_congr (h ts hts)) ?_
  intro first rest hfirst
  obtain ⟨w, rfl, -⟩ := hread (yields_attempt.1 hfirst)
  rw [List.length_append] at hts
  refine bind_congr (many_congr (n := n) ?_ (by omega)) (fun _ _ _ => rfl)
  intro us hus
  refine bind_congr rfl ?_
  intro op rest' hop
  obtain ⟨o, rfl, -⟩ := yields_satisfy.1 hop
  rw [List.length_cons] at hus
  exact bind_congr (h rest' (by omega)) (fun _ _ _ => rfl)

variable [Literal α]

theorem callOf_congr (hread : Reads Expression q) (h : AgreeBelow n q q') :
    AgreeBelow (n + 1) (callOf q) (callOf q') := by
  intro ts hts
  refine bind_congr rfl ?_
  intro name rest hname
  obtain ⟨rfl, -⟩ := yields_identifier.1 (yields_attempt.1 hname)
  refine bind_congr rfl ?_
  intro l rest' hl
  obtain ⟨rfl, -⟩ := yields_punct.1 (yields_attempt.1 hl)
  simp only [List.length_cons] at hts
  refine bind_congr (separated_congr (n := rest'.length) ?_ hread ?_ (Nat.le_refl _))
    (fun _ _ _ => rfl)
  · intro us hus
    exact h us (by omega)
  · intro us rest'' o ho
    obtain ⟨rfl, -⟩ := yields_punct.1 ho
    exact Nat.le_succ _

/-- Every alternative that calls the parser has read a token before. -/
theorem partOf_congr (hread : Reads Expression q) (h : AgreeBelow n q q') :
    AgreeBelow (n + 1) (partOf q) (partOf q') := by
  intro ts hts
  refine orElse_congr (parenthesizedOf_congr h ts hts) ?_
  refine orElse_congr (assignmentOf_congr h ts hts) ?_
  refine orElse_congr rfl ?_
  exact orElse_congr (callOf_congr hread h ts hts) rfl

theorem powerOf_congr (hread : Reads Expression q) (h : AgreeBelow n q q') :
    AgreeBelow (n + 1) (powerOf q) (powerOf q') := by
  intro ts hts
  refine bind_congr (attempt_congr (partOf_congr hread h ts hts)) ?_
  intro base rest hbase
  obtain ⟨w, rfl, -⟩ := reads_partOf hread (yields_attempt.1 hbase)
  refine bind_congr (optional_congr ?_) (fun _ _ _ => rfl)
  refine bind_congr rfl ?_
  intro o rest' ho
  obtain ⟨rfl, -⟩ := yields_punct.1 (yields_attempt.1 ho)
  refine partOf_congr hread h rest' ?_
  simp only [List.length_append, List.length_cons] at hts
  omega

theorem sumOf_congr (hread : Reads Expression q) (h : AgreeBelow n q q') :
    AgreeBelow (n + 1) (sumOf q) (sumOf q') :=
  chain_congr (reads_productOf hread) (chain_congr (reads_powerOf hread) (powerOf_congr hread h))

/-- The production of expressions calls itself only behind a token. -/
theorem expressionOf_congr (hread : Reads Expression q) (h : AgreeBelow n q q') :
    AgreeBelow (n + 1) (expressionOf q) (expressionOf q') := by
  intro ts hts
  refine bind_congr (attempt_congr (sumOf_congr hread h ts hts)) ?_
  intro left rest hleft
  obtain ⟨w, rfl, -⟩ := reads_sumOf hread (yields_attempt.1 hleft)
  refine bind_congr (optional_congr ?_) (fun _ _ _ => rfl)
  refine bind_congr rfl ?_
  intro r rest' hr
  obtain ⟨o, rfl, -⟩ := yields_satisfy.1 hr
  refine bind_congr (sumOf_congr hread h rest' ?_) (fun _ _ _ => rfl)
  simp only [List.length_append, List.length_cons] at hts
  omega

/-- The parser for expressions is a fixed point of its body. -/
theorem expression_eq : (expression : Parser (Tree α)) = expressionOf expression :=
  fix_eq (fun _ => reads_expressionOf) expressionOf_congr

end Expressions

section Statements

variable {α : Type} {q q' : Parser (Tree α)} {n : Nat}

open Phrase

theorem blockOf_congr (h : AgreeBelow n q q') : AgreeBelow (n + 1) (blockOf q) (blockOf q') := by
  intro ts hts
  refine bind_congr rfl ?_
  intro l rest hl
  obtain ⟨rfl, -⟩ := yields_punct.1 (yields_attempt.1 hl)
  rw [List.length_cons] at hts
  refine bind_congr (bind_congr (many_congr (n := rest.length) ?_ (Nat.le_refl _)) ?_) ?_
  · intro us hus
    exact h us (by omega)
  · exact fun _ _ _ => rfl
  · exact fun _ _ _ => rfl

variable [Literal α]

theorem ifOf_congr (hread : Reads Statement q) (h : AgreeBelow n q q') :
    AgreeBelow (n + 1) (ifOf q) (ifOf q') := by
  intro ts hts
  refine bind_congr rfl ?_
  intro kw rest hkw
  -- from here on at least the keyword has been read, so the blocks start with fewer tokens
  obtain ⟨rfl, -⟩ := yields_keyword.1 (yields_attempt.1 hkw)
  refine bind_congr rfl ?_
  intro c rest' hc
  obtain ⟨l, r, w, rfl, -⟩ := yields_parenthesizedOf reads_expression hc
  simp only [List.length_cons, List.length_append] at hts
  refine bind_congr (blockOf_congr h rest' (by omega)) ?_
  intro yes rest'' hyes
  obtain ⟨w', rfl, -⟩ := reads_blockOf hread hyes
  rw [List.length_append] at hts
  refine bind_congr (optional_congr ?_) (fun _ _ _ => rfl)
  refine bind_congr rfl ?_
  intro kw' rest''' hkw'
  obtain ⟨rfl, -⟩ := yields_keyword.1 (yields_attempt.1 hkw')
  rw [List.length_cons] at hts
  exact blockOf_congr h rest''' (by omega)

theorem whileOf_congr (h : AgreeBelow n q q') : AgreeBelow (n + 1) (whileOf q) (whileOf q') := by
  intro ts hts
  refine bind_congr rfl ?_
  intro kw rest hkw
  obtain ⟨rfl, -⟩ := yields_keyword.1 (yields_attempt.1 hkw)
  refine bind_congr rfl ?_
  intro c rest' hc
  obtain ⟨w, rfl, -⟩ := reads_expression hc
  simp only [List.length_cons, List.length_append] at hts
  exact bind_congr (blockOf_congr h rest' (by omega)) (fun _ _ _ => rfl)

theorem forOf_congr (h : AgreeBelow n q q') : AgreeBelow (n + 1) (forOf q) (forOf q') := by
  intro ts hts
  refine bind_congr rfl fun kw rest hkw => ?_
  refine bind_congr rfl fun l rest₁ hl => ?_
  refine bind_congr rfl fun first rest₂ hfirst => ?_
  refine bind_congr rfl fun s rest₃ hs => ?_
  refine bind_congr rfl fun c rest₄ hc => ?_
  refine bind_congr rfl fun s' rest₅ hs' => ?_
  refine bind_congr rfl fun step rest₆ hstep => ?_
  refine bind_congr rfl fun r rest₇ hr => ?_
  -- what was read before the block is counted only now
  obtain ⟨rfl, -⟩ := yields_keyword.1 (yields_attempt.1 hkw)
  obtain ⟨rfl, -⟩ := yields_punct.1 (yields_attempt.1 hl)
  obtain ⟨w, rfl, -⟩ := reads_expression hfirst
  obtain ⟨rfl, -⟩ := yields_punct.1 (yields_attempt.1 hs)
  obtain ⟨w', rfl, -⟩ := reads_expression hc
  obtain ⟨rfl, -⟩ := yields_punct.1 (yields_attempt.1 hs')
  obtain ⟨w'', rfl, -⟩ := reads_expression hstep
  obtain ⟨rfl, -⟩ := yields_punct.1 (yields_attempt.1 hr)
  simp only [List.length_cons, List.length_append] at hts
  exact bind_congr (blockOf_congr h rest₇ (by omega)) (fun _ _ _ => rfl)

/-- The production of statements calls itself only behind a token. -/
theorem statementOf_congr (hread : Reads Statement q) (h : AgreeBelow n q q') :
    AgreeBelow (n + 1) (statementOf q) (statementOf q') := by
  intro ts hts
  refine orElse_congr (ifOf_congr hread h ts hts) ?_
  refine orElse_congr (whileOf_congr h ts hts) ?_
  refine orElse_congr rfl ?_
  exact orElse_congr (forOf_congr h ts hts) rfl

/-- The parser for statements is a fixed point of its body. -/
theorem statement_eq : (statement : Parser (Tree α)) = statementOf statement :=
  fix_eq (fun _ => reads_statementOf) statementOf_congr

end Statements

end Fluxion.Grammar

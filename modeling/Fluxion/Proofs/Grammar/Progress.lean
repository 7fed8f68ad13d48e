import Fluxion.Proofs.Grammar.Code
import Mathlib.Data.Prod.Lex

/-!
# Productions make progress

A production that goes well has read a token, unless it reads statements or definitions as many as
there are (`Code.progresses_body`). So every turn of a loop reads one (`Code.Repeats.progresses`).

What else a production calls is either of lower rank, or called after a token was read
(`Code.Guarded`). So with every call the tokens that are left get fewer, or they stay the same and
the rank gets less (`Code.Calls.descends`).
-/

namespace Fluxion

open Grammar

namespace Parser

variable {β γ : Type} {p q : Parser β} {f : β → Parser γ} {ts rest : List Token} {b : β}

/-- No parser gives back tokens that it was not given. -/
theorem Composed.length_le (hp : Composed p) (h : Yields p ts b rest) :
    rest.length ≤ ts.length := by
  obtain ⟨fs, hout⟩ := h
  have hsuffix := hp.rest_suffix ts
  rw [hout] at hsuffix
  exact hsuffix.length_le

/-- Where the parser goes well it has read a token. -/
def Progresses (p : Parser β) : Prop :=
  ∀ ⦃ts b rest⦄, Yields p ts b rest → rest.length < ts.length

theorem progresses_satisfy {expected : Expectation} {accept : Token → Option β} :
    Progresses (satisfy expected accept) := by
  intro ts b rest h
  obtain ⟨o, rfl, -⟩ := yields_satisfy.1 h
  exact Nat.lt_succ_self _

theorem progresses_refuse {expected : Expectation} :
    Progresses (refuse expected : Parser β) := fun _ _ _ h => (not_yields_refuse h).elim

theorem Progresses.attempt (hp : Progresses p) : Progresses (attempt p) :=
  fun _ _ _ h => hp (yields_attempt.1 h)

theorem Progresses.orElse (hp : Progresses p) (hq : Progresses q) : Progresses (orElse p q) := by
  intro ts b rest h
  rcases yields_orElse.1 h with h | ⟨-, h⟩
  · exact hp h
  · exact hq h

/-- If the first of two parsers makes progress, it does not matter how much the second reads. -/
theorem Progresses.bind (hp : Progresses p) (hf : ∀ b, Composed (f b)) : Progresses (p >>= f) := by
  intro ts c rest h
  obtain ⟨b, mid, hb, hc⟩ := yields_bind.1 h
  exact ((hf b).length_le hc).trans_lt (hp hb)

/-- It is enough for the second of two parsers to make progress. -/
theorem Composed.bind_progresses (hp : Composed p) (hf : ∀ b, Progresses (f b)) :
    Progresses (p >>= f) := by
  intro ts c rest h
  obtain ⟨b, mid, hb, hc⟩ := yields_bind.1 h
  exact (hf b hc).trans_le (hp.length_le hb)

end Parser

namespace Grammar

open Fluxion.Parser

/-- How many ranks there are. -/
def Production.ranks : ℕ := 8

/-- The rank of a production is above those of the productions that it calls before a token is read.
-/
def Production.rank : Production → ℕ
  | assignment | call | block | ifStatement | whileStatement | forStatement | returning => 0
  | definition => 0
  | part | program => 1
  | power => 2
  | product => 3
  | sum => 4
  | expression => 5
  | statement => 6
  | sequence => 7

theorem Production.rank_lt (g : Production) : g.rank < ranks := by
  cases g <;> decide

/-! ## Code that reads a token -/

namespace Code

variable {α β γ : Type} [Literal α] {c d : Code α β} {f : β → Code α γ} {g : Production}

/-- The parser that the code is of. -/
abbrev meaning (c : Code α β) : Parser β := c.parser Production.parser

/-- By cases on the code, where a call means a production. -/
theorem composed (c : Code α β) : Composed c.meaning := by
  induction c with
  | pure b => exact .pure b
  | refuse expected => exact .refuse expected
  | abort name => exact .abort
  | satisfy expected accept => exact .satisfy
  | bind c f hc hf => exact hc.bind hf
  | attempt c hc => exact hc.attempt
  | optional c hc => exact hc.optional
  | orElse c d hc hd => exact hc.orElse hd
  | many c hc => exact hc.many
  | call g => exact g.composed

/-- Where the code goes well it has read a token. -/
def Progresses (c : Code α β) : Prop := c.meaning.Progresses

theorem Progresses.attempt (hc : Progresses c) : Progresses (attempt c) :=
  Parser.Progresses.attempt hc

theorem Progresses.orElse (hc : Progresses c) (hd : Progresses d) : Progresses (orElse c d) :=
  Parser.Progresses.orElse hc hd

theorem Progresses.bind (hc : Progresses c) (f : β → Code α γ) : Progresses (c >>= f) :=
  Parser.Progresses.bind hc fun b => (f b).composed

theorem progresses_bind (c : Code α β) (hf : ∀ b, Progresses (f b)) : Progresses (c >>= f) :=
  c.composed.bind_progresses hf

/-- A call means what the body of the production means. -/
theorem progresses_call_of (hg : Progresses (body g : Code α (Tree α))) :
    Progresses (call g : Code α (Tree α)) := by
  rw [Progresses, meaning, parser_body] at hg
  exact hg

theorem progresses_satisfy {expected : Expectation} {accept : Token → Option β} :
    Progresses (satisfy expected accept : Code α β) :=
  Parser.progresses_satisfy

theorem progresses_identifier : Progresses (identifier : Code α Token) :=
  .bind (.attempt progresses_satisfy) _

theorem progresses_number : Progresses (number : Code α (Number α)) :=
  progresses_bind _ fun _ => progresses_satisfy

/-- The operator is read, so the operand need not take a token. -/
theorem progresses_operation {expected : Expectation} {op? : Token → Option NaryOp}
    {operand : Code α (Tree α)} : Progresses (operation expected op? operand) :=
  .bind progresses_satisfy _

theorem progresses_afterComma : Progresses (afterComma c) :=
  .bind progresses_satisfy.attempt _

/-- The parentheses are read, whatever stands between them. -/
theorem progresses_parenthesized : Progresses (parenthesized : Code α (Tree α)) :=
  .bind progresses_satisfy.attempt _

/-- The first operand makes the progress, as no operator need follow. -/
theorem Progresses.chain {expected : Expectation} {op? : Token → Option NaryOp}
    {operand : Code α (Tree α)} (h : Progresses operand) :
    Progresses (chain expected op? operand) :=
  .bind h.attempt _

theorem Progresses.closed {c : Code α (Tree α)} (hc : Progresses c) : Progresses (closed c) :=
  .bind hc _

/-- Every production that goes well has read a token, but for those that read as many as there are.
-/
theorem progresses_body (g : Production) (h : g ≠ .sequence) (h' : g ≠ .program) :
    (body g : Code α (Tree α)).Progresses := by
  -- each is shown after those that it calls first
  have hassignment : Progresses (body .assignment : Code α (Tree α)) :=
    .bind progresses_identifier.attempt _
  have hcall : Progresses (body .call : Code α (Tree α)) := .bind progresses_identifier.attempt _
  have hpart : Progresses (body .part : Code α (Tree α)) := by
    refine progresses_parenthesized.orElse (.orElse (progresses_call_of hassignment) ?_)
    refine .orElse (progresses_number.bind _) (.orElse (progresses_call_of hcall) ?_)
    exact .orElse (progresses_identifier.bind _) progresses_refuse
  have hpower : Progresses (body .power : Code α (Tree α)) :=
    .bind (progresses_call_of hpart).attempt _
  have hproduct : Progresses (body .product : Code α (Tree α)) := (progresses_call_of hpower).chain
  have hsum : Progresses (body .sum : Code α (Tree α)) := (progresses_call_of hproduct).chain
  have hexpression : Progresses (body .expression : Code α (Tree α)) :=
    .bind (progresses_call_of hsum).attempt _
  have hif : Progresses (body .ifStatement : Code α (Tree α)) :=
    .bind progresses_satisfy.attempt _
  have hwhile : Progresses (body .whileStatement : Code α (Tree α)) :=
    .bind progresses_satisfy.attempt _
  have hfor : Progresses (body .forStatement : Code α (Tree α)) :=
    .bind progresses_satisfy.attempt _
  have hreturning : Progresses (body .returning : Code α (Tree α)) :=
    .bind progresses_satisfy.attempt _
  cases g with
  | expression => exact hexpression
  | sum => exact hsum
  | product => exact hproduct
  | power => exact hpower
  | part => exact hpart
  | assignment => exact hassignment
  | call => exact hcall
  | statement =>
    refine .orElse (progresses_call_of hif) (.orElse (progresses_call_of hwhile) ?_)
    refine .orElse (progresses_call_of hreturning).closed (.orElse (progresses_call_of hfor) ?_)
    exact (progresses_call_of hexpression).closed.attempt
  | sequence => exact absurd rfl h
  | block => exact .bind progresses_satisfy.attempt _
  | ifStatement => exact hif
  | whileStatement => exact hwhile
  | forStatement => exact hfor
  | returning => exact hreturning
  | definition => exact .bind progresses_satisfy.attempt _
  | program => exact absurd rfl h'

/-- The two productions that may go well without reading a token are those of sequences. -/
theorem progresses_call (h : g ≠ .sequence) (h' : g ≠ .program) :
    Progresses (call g : Code α (Tree α)) :=
  progresses_call_of (progresses_body g h h')

/-! ## Loops and calls -/

/-- Somewhere in the code there is a loop, each turn of which is `turn`. -/
inductive Repeats : {γ : Type} → Code α γ → {β : Type} → Code α β → Prop
  | loop {β : Type} {turn : Code α β} : Repeats (.many turn) turn
  | many {β γ : Type} {c : Code α γ} {turn : Code α β} : Repeats c turn → Repeats (.many c) turn
  | first {β γ δ : Type} {c : Code α γ} {f : γ → Code α δ} {turn : Code α β} :
      Repeats c turn → Repeats (.bind c f) turn
  | next {β γ δ : Type} {c : Code α γ} {f : γ → Code α δ} {turn : Code α β} (b : γ) :
      Repeats (f b) turn → Repeats (.bind c f) turn
  | attempt {β γ : Type} {c : Code α γ} {turn : Code α β} :
      Repeats c turn → Repeats (.attempt c) turn
  | optional {β γ : Type} {c : Code α γ} {turn : Code α β} :
      Repeats c turn → Repeats (.optional c) turn
  | either {β γ : Type} {c d : Code α γ} {turn : Code α β} :
      Repeats c turn → Repeats (.orElse c d) turn
  | other {β γ : Type} {c d : Code α γ} {turn : Code α β} :
      Repeats d turn → Repeats (.orElse c d) turn

/-- On the tokens `ts` the code calls the production `g`, at a time when `us` are left. -/
inductive Calls : {γ : Type} → Code α γ → List Token → Production → List Token → Prop
  | call {g : Production} {ts : List Token} : Calls (.call g) ts g ts
  | first {γ δ : Type} {c : Code α γ} {f : γ → Code α δ} {g : Production} {ts us : List Token} :
      Calls c ts g us → Calls (.bind c f) ts g us
  | next {γ δ : Type} {c : Code α γ} {f : γ → Code α δ} {g : Production} {ts mid us : List Token}
      {b : γ} : Yields c.meaning ts b mid → Calls (f b) mid g us → Calls (.bind c f) ts g us
  | attempt {γ : Type} {c : Code α γ} {g : Production} {ts us : List Token} :
      Calls c ts g us → Calls (.attempt c) ts g us
  | optional {γ : Type} {c : Code α γ} {g : Production} {ts us : List Token} :
      Calls c ts g us → Calls (.optional c) ts g us
  | either {γ : Type} {c d : Code α γ} {g : Production} {ts us : List Token} :
      Calls c ts g us → Calls (.orElse c d) ts g us
  | other {γ : Type} {c d : Code α γ} {g : Production} {ts us : List Token} :
      Refuses c.meaning ts → Calls d ts g us → Calls (.orElse c d) ts g us
  | turn {γ : Type} {c : Code α γ} {g : Production} {ts us : List Token} :
      Calls c ts g us → Calls (.many c) ts g us
  | later {γ : Type} {c : Code α γ} {g : Production} {ts mid us : List Token} {b : γ} :
      Yields c.meaning ts b mid → Calls (.many c) mid g us → Calls (.many c) ts g us

/-- Before the code has read a token, it only calls productions of rank below `r`, and any
production later. Each turn of its loops reads a token. -/
def Guarded : {β : Type} → Code α β → ℕ → Prop
  | _, .pure _, _ | _, .refuse _, _ | _, .abort _, _ | _, .satisfy _ _, _ => True
  | _, .bind c f, r =>
    c.Guarded r ∧ ((∀ b, (f b).Guarded r) ∨ c.Progresses ∧ ∀ b, (f b).Guarded Production.ranks)
  | _, .attempt c, r | _, .optional c, r => c.Guarded r
  | _, .orElse c d, r => c.Guarded r ∧ d.Guarded r
  | _, .many c, r => c.Guarded r ∧ c.Progresses
  | _, .call g, r => g.rank < r

/-- A turn of a loop in code that is guarded reads a token. -/
theorem Repeats.progresses {turn : Code α β} {c : Code α γ} {r : ℕ} (h : Repeats c turn)
    (hc : Guarded c r) : Progresses turn := by
  induction h generalizing r with
  | loop => exact hc.2
  | many _ ih | first _ ih | either _ ih => exact ih hc.1
  | next b _ ih =>
    rcases hc.2 with hf | ⟨-, hf⟩
    · exact ih (hf b)
    · exact ih (hf b)
  | attempt _ ih | optional _ ih => exact ih hc
  | other _ ih => exact ih hc.2

/-- What is called is given fewer tokens, or it is of lower rank. -/
theorem Calls.lower {c : Code α γ} {r : ℕ} {ts us : List Token} (h : Calls c ts g us)
    (hc : Guarded c r) : us.length < ts.length ∨ us.length = ts.length ∧ g.rank < r := by
  induction h generalizing r with
  | call => exact .inr ⟨rfl, hc⟩
  | first _ ih | either _ ih | turn _ ih => exact ih hc.1
  | @next _ _ c _ _ _ _ _ b hb _ ih =>
    -- a call behind another part is of lower rank, or some token has been read before it
    rcases hc.2 with hf | ⟨hprogresses, hf⟩
    · have hle := c.composed.length_le hb
      have hlower := ih (hf b)
      omega
    · have hlt := hprogresses hb
      have hlower := ih (hf b)
      omega
  | attempt _ ih | optional _ ih => exact ih hc
  | other _ _ ih => exact ih hc.2
  | later hb _ ih =>
    have hlt := hc.2 hb
    have hlower := ih hc
    omega

/-! ## The code of the productions -/

section Bodies

variable {r : ℕ}

/-- The second part keeps the bound if the first need not read a token. -/
theorem Guarded.bind (hc : Guarded c r) (hf : ∀ b, Guarded (f b) r) : Guarded (c >>= f) r :=
  ⟨hc, .inl hf⟩

/-- Behind a token that was read any production may be called. -/
theorem Guarded.after (hc : Guarded c r) (hprogresses : Progresses c)
    (hf : ∀ b, Guarded (f b) Production.ranks) : Guarded (c >>= f) r :=
  ⟨hc, .inr ⟨hprogresses, hf⟩⟩

theorem guarded_pure {b : β} : Guarded (Pure.pure b : Code α β) r := trivial

/-- A call is of lower rank than the bound. -/
theorem guarded_call (hrank : g.rank < r) : Guarded (call g : Code α (Tree α)) r := hrank

/-- Behind a single token any production may be called. -/
theorem guarded_afterToken {expected : Expectation} {accept : Token → Option Token}
    {f : Token → Code α β} (hf : ∀ o, Guarded (f o) Production.ranks) :
    Guarded (Code.attempt (satisfy expected accept) >>= f) r :=
  .after trivial progresses_satisfy.attempt hf

theorem guarded_identifier : Guarded (identifier : Code α Token) r := by
  refine .bind trivial fun name => ?_
  split <;> trivial

theorem guarded_afterName {f : Token → Code α β} (hf : ∀ o, Guarded (f o) Production.ranks) :
    Guarded (Code.attempt identifier >>= f) r :=
  .after guarded_identifier progresses_identifier.attempt hf

theorem guarded_afterCall {f : Tree α → Code α β} (hf : ∀ t, Guarded (f t) Production.ranks) :
    Guarded (call g >>= f) Production.ranks :=
  .bind g.rank_lt hf

/-- The first operand is called before a token was read, those behind operators after one. -/
theorem guarded_chain {expected : Expectation} {op? : Token → Option NaryOp} (hrank : g.rank < r)
    (hg : Progresses (call g : Code α (Tree α))) :
    Guarded (chain expected op? (call g : Code α (Tree α))) r := by
  have hoperation : Guarded (operation expected op? (call g : Code α (Tree α))) Production.ranks :=
    .bind trivial fun op => guarded_afterCall fun t => guarded_pure
  exact .after hrank hg.attempt fun first =>
    .bind ⟨hoperation, progresses_operation⟩ fun others => guarded_pure

/-- The turns of the loop read a comma. -/
theorem Guarded.separated {c : Code α β} (hc : Guarded c Production.ranks) :
    Guarded (separated c) Production.ranks := by
  refine .bind hc fun found => ?_
  cases found with
  | none => exact guarded_pure
  | some b =>
    exact .bind ⟨guarded_afterToken fun _ => hc, progresses_afterComma⟩ fun others => guarded_pure

theorem guarded_parenthesized : Guarded (parenthesized : Code α (Tree α)) r :=
  guarded_afterToken fun _ => guarded_afterCall fun _ => guarded_afterToken fun _ => guarded_pure

theorem Guarded.closed {c : Code α (Tree α)} (hc : Guarded c r) : Guarded (closed c) r :=
  .bind hc fun _ => guarded_afterToken fun _ => guarded_pure

/-- Before it has read a token the body of a production calls only productions of lower rank. -/
theorem guarded_body (g : Production) : Guarded (body g : Code α (Tree α)) g.rank := by
  -- a production calls one of lower rank, or first reads a token
  cases g with
  | expression =>
    have hsum : Progresses (call .sum : Code α (Tree α)) := progresses_call nofun nofun
    refine .after (guarded_call (by decide)) hsum.attempt fun left => ?_
    refine .bind (.bind trivial fun r => guarded_afterCall fun t => guarded_pure) ?_
    rintro (_ | ⟨r, t⟩) <;> exact guarded_pure
  | sum => exact guarded_chain (by decide) (progresses_call nofun nofun)
  | product => exact guarded_chain (by decide) (progresses_call nofun nofun)
  | power =>
    have hpart : Progresses (call .part : Code α (Tree α)) := progresses_call nofun nofun
    refine .after (guarded_call (by decide)) hpart.attempt fun base => ?_
    refine .bind (guarded_afterToken fun _ => guarded_call (by decide)) ?_
    rintro (_ | exponent) <;> exact guarded_pure
  | part =>
    refine ⟨guarded_parenthesized, guarded_call (by decide), ?_⟩
    refine ⟨.bind (.bind trivial fun _ => trivial) fun _ => guarded_pure, ?_⟩
    refine ⟨guarded_call (by decide), ?_, trivial⟩
    exact .bind guarded_identifier fun _ => guarded_pure
  | assignment =>
    exact guarded_afterName fun _ => guarded_afterToken fun _ => guarded_afterCall fun _ =>
      guarded_pure
  | call =>
    refine guarded_afterName fun _ => guarded_afterToken fun _ => ?_
    refine .bind (.separated (guarded_call (by decide))) fun _ => ?_
    exact guarded_afterToken fun _ => guarded_pure
  | statement =>
    refine ⟨guarded_call (by decide), guarded_call (by decide), ?_⟩
    refine ⟨.closed (guarded_call (by decide)), guarded_call (by decide), ?_⟩
    exact .closed (guarded_call (by decide))
  | sequence =>
    refine .bind ⟨guarded_call (by decide), ?_⟩ fun _ => guarded_pure
    exact progresses_call nofun nofun
  | block =>
    exact guarded_afterToken fun _ => guarded_afterCall fun _ => guarded_afterToken fun _ =>
      guarded_pure
  | ifStatement =>
    refine guarded_afterToken fun _ => .bind guarded_parenthesized fun _ => ?_
    refine guarded_afterCall fun _ => .bind ?_ fun _ => guarded_pure
    exact guarded_afterToken fun _ => guarded_call (by decide)
  | whileStatement =>
    refine guarded_afterToken fun _ => guarded_afterCall fun _ => ?_
    exact guarded_afterCall fun _ => guarded_pure
  | forStatement =>
    refine guarded_afterToken fun _ => guarded_afterToken fun _ => guarded_afterCall fun _ => ?_
    refine guarded_afterToken fun _ => guarded_afterCall fun _ => guarded_afterToken fun _ => ?_
    refine guarded_afterCall fun _ => guarded_afterToken fun _ => ?_
    exact guarded_afterCall fun _ => guarded_pure
  | returning =>
    exact guarded_afterToken fun _ => .bind guarded_parenthesized fun _ => guarded_pure
  | definition =>
    refine guarded_afterToken fun _ => guarded_afterName fun _ => guarded_afterToken fun _ => ?_
    refine .bind (.separated guarded_identifier) fun _ => guarded_afterToken fun _ => ?_
    exact guarded_afterCall fun _ => guarded_pure
  | program =>
    refine .bind ⟨guarded_call (by decide), ?_⟩ fun _ => guarded_pure
    exact progresses_call nofun nofun

end Bodies

/-- With every call of a production by another the tokens that are left get fewer, or they stay the
same and the rank gets less. -/
theorem Calls.descends {h : Production} {ts us : List Token}
    (hcall : Calls (body g : Code α _) ts h us) :
    toLex (us.length, h.rank) < toLex (ts.length, g.rank) :=
  Prod.Lex.toLex_lt_toLex.2 (hcall.lower (guarded_body g))

end Code

end Grammar

end Fluxion

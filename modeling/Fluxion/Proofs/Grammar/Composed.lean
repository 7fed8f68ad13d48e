import Fluxion.Proofs.Grammar.Recursion

/-!
# What productions are put together from

Every production is made of readers of single tokens: one after another, tried or left out, one of
two, as many as there are, and a production within itself. That it is (`Composed`) is shown here
once for each of them, and so all that these ways of putting parsers together keep holds of every
production.
-/

namespace Fluxion

namespace Parser

/-- The parser is put together from readers of single tokens. -/
inductive Composed : {β : Type} → Parser β → Prop
  | pure {β : Type} (b : β) : Composed (Pure.pure b : Parser β)
  | refuse {β : Type} (expected : Expectation) : Composed (Parser.refuse expected : Parser β)
  | abort {β : Type} {name : Token} : Composed (Parser.abort (.nameTooLong name) : Parser β)
  | satisfy {β : Type} {expected : Expectation} {accept : Token → Option β} :
      Composed (Parser.satisfy expected accept)
  | bind {β γ : Type} {p : Parser β} {f : β → Parser γ} :
      Composed p → (∀ b, Composed (f b)) → Composed (p >>= f)
  | attempt {β : Type} {p : Parser β} : Composed p → Composed (Parser.attempt p)
  | optional {β : Type} {p : Parser β} : Composed p → Composed (Parser.optional p)
  | orElse {β : Type} {p q : Parser β} : Composed p → Composed q → Composed (Parser.orElse p q)
  | many {β : Type} {p : Parser β} : Composed p → Composed (Parser.many p)
  /-- On lists of any bounded length the parser is one that is put together. -/
  | limit {β : Type} {p : Parser β} (q : Nat → Parser β) :
      (∀ n, Composed (q n)) → (∀ n, Grammar.AgreeBelow n p (q n)) → Composed p

namespace Composed

variable {β γ : Type} {p : Parser β}

/-- Values with separators are an optional value and any number of separators with a value each. -/
theorem separated {separator : Parser γ} (hseparator : Composed separator) (hp : Composed p) :
    Composed (Parser.separated separator p) := by
  refine hp.optional.bind fun found => ?_
  cases found with
  | none => exact .pure []
  | some b => exact (hseparator.attempt.bind fun _ => hp).many.bind fun _ => .pure _

/-- To be put together it is enough to agree, on lists of any bounded length, with some parser that
is. -/
theorem of_agreeBelow (p : Parser β) (h : ∀ n, ∃ q, Composed q ∧ Grammar.AgreeBelow n p q) :
    Composed p :=
  .limit (fun n => (h n).choose) (fun n => (h n).choose_spec.1) fun n => (h n).choose_spec.2

end Composed

end Parser

/-! ## The grammar -/

namespace Grammar

open Fluxion.Parser

variable {α : Type} {q : Parser (Tree α)} {expected : Expectation} {mark : Punct} {word : Keyword}

theorem composed_punct : Composed (punct mark) := .satisfy

theorem composed_keyword : Composed (keyword word) := .satisfy

/-- A name is read as a token, and reading ends if it is too long. -/
theorem composed_identifier : Composed identifier := by
  refine Composed.bind (Composed.attempt .satisfy) fun name => ?_
  by_cases hlong : maxNameBytes < name.text.utf8ByteSize
  · rw [if_pos hlong]
    exact .abort
  · rw [if_neg hlong]
    exact .pure name

/-- Operands with operators between them, whatever the operators of the level are. -/
theorem composed_chain {op? : Token → Option NaryOp} (hq : Composed q) :
    Composed (chain expected op? q) := by
  refine hq.attempt.bind fun first => Composed.bind (.many ?_) fun _ => .pure _
  exact Composed.bind .satisfy fun op => hq.bind fun _ => .pure _

/-- The mark, the expression and the closing mark are read one after another. -/
theorem composed_parenthesizedOf (hq : Composed q) : Composed (parenthesizedOf q) :=
  composed_punct.attempt.bind fun _ => hq.bind fun _ => composed_punct.attempt.bind fun _ => .pure _

theorem composed_assignmentOf (hq : Composed q) : Composed (assignmentOf q) :=
  composed_identifier.attempt.bind fun _ => composed_punct.attempt.bind fun _ =>
    hq.bind fun _ => .pure _

theorem composed_callOf (hq : Composed q) : Composed (callOf q) :=
  composed_identifier.attempt.bind fun _ => composed_punct.attempt.bind fun _ =>
    (Composed.separated composed_punct hq).bind fun _ => composed_punct.attempt.bind fun _ =>
      .pure _

theorem composed_sequenceOf (hq : Composed q) : Composed (sequenceOf q) :=
  hq.many.bind fun _ => .pure _

theorem composed_blockOf (hq : Composed q) : Composed (blockOf q) :=
  composed_punct.attempt.bind fun _ => (composed_sequenceOf hq).bind fun _ =>
    composed_punct.attempt.bind fun _ => .pure _

theorem composed_closed (hq : Composed q) : Composed (closed q) :=
  hq.bind fun _ => composed_punct.attempt.bind fun _ => .pure _

variable [Literal α]

theorem composed_number : Composed (number : Parser (Number α)) :=
  composed_punct.optional.bind fun _ => .satisfy

theorem composed_constant : Composed (constant : Parser (Tree α)) :=
  composed_number.bind fun _ => .pure _

/-- A part is one of five alternatives, or is missing. -/
theorem composed_partOf (hq : Composed q) : Composed (partOf q) :=
  (composed_parenthesizedOf hq).orElse <| (composed_assignmentOf hq).orElse <|
    composed_constant.orElse <| (composed_callOf hq).orElse <|
    (composed_identifier.bind fun _ => .pure _).orElse (.refuse _)

theorem composed_powerOf (hq : Composed q) : Composed (powerOf q) := by
  refine (composed_partOf hq).attempt.bind fun base => ?_
  refine Composed.bind (.optional (composed_punct.attempt.bind fun _ => composed_partOf hq)) ?_
  rintro (_ | exponent)
  · exact .pure _
  · exact .pure _

theorem composed_sumOf (hq : Composed q) : Composed (sumOf q) :=
  composed_chain (composed_chain (composed_powerOf hq))

/-- An expression is a sum and an optional second one, behind a comparison. -/
theorem composed_expressionOf (hq : Composed q) : Composed (expressionOf q) := by
  refine (composed_sumOf hq).attempt.bind fun left => ?_
  refine Composed.bind (.optional (Composed.bind .satisfy fun r => ?_)) ?_
  · exact (composed_sumOf hq).bind fun _ => .pure _
  rintro (_ | ⟨r, t⟩)
  · exact .pure _
  · exact .pure _

/-- Tied to itself, the production of expressions is unfolded as often as there are tokens. -/
theorem composed_expression : Composed (expression : Parser (Tree α)) :=
  fix_induction (fun _ => reads_expressionOf) expressionOf_congr Composed.of_agreeBelow
    (.refuse _) fun _ => composed_expressionOf

theorem composed_condition : Composed (condition : Parser (Tree α)) :=
  composed_parenthesizedOf composed_expression

/-- Behind the condition and the block there is an optional second block. -/
theorem composed_ifOf (hq : Composed q) : Composed (ifOf q) := by
  refine composed_keyword.attempt.bind fun _ => composed_condition.bind fun c => ?_
  refine (composed_blockOf hq).bind fun yes => Composed.bind (.optional ?_) fun _ => .pure _
  exact composed_keyword.attempt.bind fun _ => composed_blockOf hq

theorem composed_whileOf (hq : Composed q) : Composed (whileOf q) :=
  composed_keyword.attempt.bind fun _ => composed_expression.bind fun _ =>
    (composed_blockOf hq).bind fun _ => .pure _

/-- The three expressions of the head are read one after another, then the block. -/
theorem composed_forOf (hq : Composed q) : Composed (forOf q) := by
  refine composed_keyword.attempt.bind fun _ => composed_punct.attempt.bind fun _ => ?_
  refine composed_expression.bind fun first => composed_punct.attempt.bind fun _ => ?_
  refine composed_expression.bind fun c => composed_punct.attempt.bind fun _ => ?_
  refine composed_expression.bind fun step => composed_punct.attempt.bind fun _ => ?_
  exact (composed_blockOf hq).bind fun _ => .pure _

theorem composed_returning : Composed (returning : Parser (Tree α)) :=
  composed_keyword.attempt.bind fun _ => composed_condition.bind fun _ => .pure _

/-- A statement is one of five alternatives, given how the statements of its blocks are read. -/
theorem composed_statementOf (hq : Composed q) : Composed (statementOf q) :=
  (composed_ifOf hq).orElse <| (composed_whileOf hq).orElse <|
    (composed_closed composed_returning).orElse <|
    (composed_forOf hq).orElse (composed_closed composed_expression).attempt

/-- Statements within blocks are unfolded as often as there are tokens. -/
theorem composed_statement : Composed (statement : Parser (Tree α)) :=
  fix_induction (fun _ => reads_statementOf) statementOf_congr Composed.of_agreeBelow
    (.refuse _) fun _ => composed_statementOf

/-- The head of a definition is read token by token, with names for the parameters. -/
theorem composed_definition : Composed (definition : Parser (Tree α)) := by
  refine composed_keyword.attempt.bind fun _ => composed_identifier.attempt.bind fun name => ?_
  refine composed_punct.attempt.bind fun _ => ?_
  refine (Composed.separated composed_punct composed_identifier.attempt).bind fun parameters => ?_
  exact composed_punct.attempt.bind fun _ => (composed_blockOf composed_statement).bind fun _ =>
    .pure _

theorem composed_program : Composed (program : Parser (Tree α)) :=
  composed_definition.many.bind fun _ => .pure _

/-- Whatever a text may be read as, its production is put together from readers of single tokens. -/
theorem composed_production (entry : Entry) : Composed (entry.production : Parser (Tree α)) := by
  cases entry with
  | expression => exact composed_expression
  | statements => exact composed_sequenceOf composed_statement
  | program => exact composed_program

end Grammar

end Fluxion

import Fluxion.Proofs.Decimal.Floats
import Fluxion.Proofs.Simplify.Printed
import Fluxion.Proofs.Tree.RoundTrip
import Fluxion.Session.Line

/-!
# Programs that are printed are read again

What is printed for a program is the text of its simplified form. With an end mark it is a program
again, for which the same is printed, if the constants that simplification leaves are finite
(`Session.process_printed`): the tree that is read is the simplified one with its powers nested, and
those are flattened again.

For a constant that is not finite a word is written, which is no number when it is read. A name may
stand in its place, but not behind a minus sign (`Session.not_process_printed`).
-/

namespace Fluxion

open Fluxion.Tree Fluxion.Parser

section Mark

variable {α : Type} [Literal α] {finite : α → Prop} {t : Tree α}

/-- There is no end mark in the text of a tree. -/
theorem Entry.Shape.not_mem_dollar {entry : Entry} (hlegible : Legible finite)
    (h : entry.Shape finite t) : '$' ∉ t.text.toList := by
  intro hmem
  have hspelled := (Entry.Shape.neat hlegible h).spelled 0
  rw [← text_eq, ← Token.significant_eq] at hspelled
  obtain ⟨o, ho, hkind⟩ := Token.dollar_mem_iff.1 hmem
  -- all tokens of the text are part of a sentence, and a sentence has no end mark
  have hyields : Yields entry.production (Token.significant t.text ++ [o]) t [o] :=
    h.yields hlegible hspelled hkind
  obtain ⟨w, hw, hsentence⟩ := Grammar.reads_production entry hyields
  rw [← List.append_cancel_right hw] at hsentence
  exact hsentence.noDollar o ho hkind

/-- So one is added to it. -/
theorem Entry.Shape.withSentinel_text {entry : Entry} (hlegible : Legible finite)
    (h : entry.Shape finite t) : withSentinel t.text = t.text ++ "$" :=
  withSentinel_of_not_mem (h.not_mem_dollar hlegible)

end Mark

namespace Session

/-- In program mode a text is answered with its simplified tree. -/
theorem process_program {text : String} {o : Options} (hmode : o.mode = .program) {t : Tree Float}
    (h : Entry.program.parse text = .ok t) : process text o = .ok t.simplify.text := by
  rw [process, hmode]
  simp only [h]

/-- An answer in program mode is the text of a simplified tree. -/
theorem parse_of_process {text s : String} {o : Options} (hmode : o.mode = .program)
    (h : process text o = .ok s) :
    ∃ t : Tree Float, Entry.program.parse text = .ok t ∧ s = t.simplify.text := by
  rw [process, hmode] at h
  dsimp only at h
  split at h
  · cases h
  · next t ht =>
    cases h
    exact ⟨t, ht, rfl⟩

/-! ## Programs of one statement -/

section Programs

variable {α : Type} [Literal α]

/-- A program of one function with one statement. -/
def oneStatement (parameters : List String) (t : Tree α) : Tree α :=
  .node .sequence [.node (.define "f") (parameters.map .var ++ [.node .sequence [t]])]

omit [Literal α] in
/-- The statement is simplified within its function. -/
theorem simplify_oneStatement [Scalar α] (parameters : List String) (t : Tree α) :
    (oneStatement parameters t).simplify = oneStatement parameters t.simplify := by
  rw [oneStatement, keepsForm_simplify.sequence, List.map_singleton,
    keepsForm_simplify.define simplify_var, List.map_singleton]
  rfl

theorem pieces_oneStatement (parameters : List String) (t : Tree α) :
    (oneStatement parameters t).pieces =
      "function" :: " " :: "f" ::
        (Written.inParens (Written.listed "," (parameters.map fun x => [x])) ++
          " " :: Written.inBraces t.statementPieces) := by
  rw [oneStatement, pieces_sequence, sequencePieces, List.map_singleton,
    List.intercalate_singleton, statementPieces, Written.statementText]
  show (node (.define "f") _).pieces = _
  rw [pieces_define, sequencePieces, List.map_singleton, List.intercalate_singleton]

/-- The square of `x ^ x`, one level at a time. -/
theorem parse_power : Entry.program.parse "function f(x){(x^x)^2;}$" =
    .ok (oneStatement ["x"] (.node (.nary .pow) [.node (.nary .pow) [.var "x", .var "x"],
      .num (Literal.ofDigits "2" : α)])) := by
  cbv

/-- The text is a function with a quotient for its one statement, and it is read. -/
theorem parse_quotient : Entry.program.parse "function f(){-1/0;}$" =
    .ok (oneStatement [] (.node (.nary .div) [.num (Literal.negate (Literal.ofDigits "1")),
      .num (Literal.ofDigits "0" : α)])) := by
  cbv

/-- A minus sign in front of a name is no number. -/
theorem parse_negativeName : ∃ e, (Entry.program.parse "function f() { -inf; }$" :
    Except SourceError (Tree α)) = .error e := by
  refine ⟨?_, ?_⟩
  rotate_left
  · cbv; rfl

end Programs

open Simplify

/-- The power is flattened. -/
theorem simplify_power {α : Type} [Scalar α] {x : String} {c : α} (hc : Ordinary (.num c)) :
    (node (.nary .pow) [node (.nary .pow) [var x, var x], num c]).simplify =
      node (.nary .pow) [var x, var x, num c] := by
  have hbase : Reduces (node (.nary .pow) [var x, var x] : Tree α)
      (node (.nary .pow) [var x, var x]) := by
    refine .last (turns_of_ordinary (by simp [ordinary_var]) (by simp) ?_)
    exact turns_of_factors (x := x) (by simp) (by simp [leafNames]) (Rule.left_of_eq_none rfl)
      (Rule.left_of_eq_none rfl) (Rule.left_of_eq_none rfl)
  -- the first pass inlines the inner power, and the second finds nothing to do
  have hpower : Reduces (node (.nary .pow) [node (.nary .pow) [var x, var x], num c])
      (node (.nary .pow) [var x, var x, num c]) := by
    refine .pass (turns_of_ordinary (by simp [hc, ordinary_node]) (by simp) ?_)
      (.last (turns_of_ordinary (by simp [hc, ordinary_var]) (by simp) ?_))
    · exact turns_of_factors (x := x) (by simp) (by simp [leafNames]) (Rule.left_named rfl)
        (Rule.left_of_eq_none rfl) (Rule.left_of_eq_none rfl)
    · exact turns_of_factors (x := x) (by simp) (by simp [leafNames]) (Rule.left_of_eq_none rfl)
        (Rule.left_of_eq_none rfl) (Rule.left_of_eq_none rfl)
  have hinner : (node (.nary .pow) [var x, var x] : Tree α).simplify =
      node (.nary .pow) [var x, var x] := by
    rw [simplify_node, List.map_cons, List.map_singleton, simplify_var, root_of_isArithmetic rfl,
      hbase.result]
  rw [simplify_node, List.map_cons, List.map_singleton, hinner, simplify_num,
    root_of_isArithmetic rfl, hpower.result]

/-- A quotient of constants is evaluated, even where the divisor is zero. -/
theorem simplify_quotient {α : Type} [Scalar α] {a b : α} (ha : Scalar.isZero a = false)
    (hb : Scalar.isOne b = false) :
    (node (.nary .div) [num a, num b]).simplify = num (Scalar.div a b) := by
  have hkept : keptOperands .div [num a, num b] = [num a, num b] := by
    have hfilter : withoutNeutral .div [num b] = [num b] := by
      rw [withoutNeutral, List.filter_cons_of_pos]
      · rfl
      · show (!Scalar.isOne b) = true
        rw [hb]
        rfl
    show num a :: withoutNeutral .div [num b] = _
    rw [hfilter]
  -- no short circuit applies, as the dividend is not zero
  have hshort : shortCircuits (node (.nary .div) [num a, num b]) = none := by
    rw [shortCircuits, Rule.first_eq_none]
    simp only [List.forall_mem_cons, Rule.named_eq_none]
    exact ⟨rfl, rfl, if_neg (Bool.eq_false_iff.1 ha), rfl, List.forall_mem_nil _⟩
  have hvalue : evaluate (node (.nary .div) [num a, num b]) = some (num (Scalar.div a b)) := by
    simp [evaluate, Operator.isArithmetic, toExpr, Expr.ofNode, Expr.eval, bind, Except.bind, pure,
      Except.pure, NaryOp.apply]
  rw [simplify_node, List.map_cons, List.map_singleton, simplify_num, simplify_num]
  refine root_of_pass_left rfl ?_ (settled_num _)
  rw [Simplify.pass, Rule.left_inTurn_cons, identities_left, hkept]
  show (Rule.inTurn _).left (node (.nary .div) [num a, num b]) = _
  rw [Rule.left_inTurn_cons, Rule.left_of_eq_none hshort, Rule.left_inTurn_cons,
    Rule.left_named hvalue]
  rfl

/-! ## What is printed is read again -/

/-- What is printed for a program is accepted again, and printed as it is, if the constants of the
simplified program are finite. -/
theorem process_printed {text s : String} {o : Options} (hmode : o.mode = .program)
    (h : process text o = .ok s)
    (hfinite : ∀ t : Tree Float, Entry.program.parse text = .ok t →
      t.simplify.IsFinite fun a => a.isFinite = true) :
    process (withSentinel s) o = .ok s := by
  obtain ⟨t, hparse, rfl⟩ := parse_of_process hmode h
  have hshape : Entry.program.Shape (fun _ => True) t :=
    Entry.shape_of_parse hparse fun _ _ => trivial
  have hnested := hshape.regroup_simplify (hfinite t hparse)
  have hreread : Entry.program.parse (withSentinel t.simplify.text) = .ok t.simplify.regroup := by
    rw [← hshape.text_regroup_simplify, hnested.withSentinel_text Doubles.legible_float]
    exact Entry.parse_text Doubles.legible_float hnested
  rw [process_program hmode hreread, simplify_regroup (each_open_simplify hshape.formed)]

/-- The text of a power with two exponents is read as a power of a power, and printed as it is. -/
theorem process_printed_power :
    process "function f(x){(x^x)^2;}$" { mode := .program } = .ok "function f(x) { (x^x)^2; }" ∧
      process (withSentinel "function f(x) { (x^x)^2; }") { mode := .program } =
        .ok "function f(x) { (x^x)^2; }" := by
  have hordinary : Ordinary (num (Literal.ofDigits "2") : Tree Float) :=
    ⟨by decide +kernel, by decide +kernel⟩
  have hsimplify := (simplify_oneStatement ["x"] _).trans
    (congrArg (oneStatement ["x"]) (simplify_power (x := "x") hordinary))
  have hprinted : process "function f(x){(x^x)^2;}$" { mode := .program } =
      .ok "function f(x) { (x^x)^2; }" := by
    have htext : Literal.text (Literal.ofDigits "2" : Float) = "2" := by decide +kernel
    -- the tree is flat now, but its text has the parentheses again
    have hpieces :
        (node (.nary .pow) [var "x", var "x", num (Literal.ofDigits "2" : Float)]).pieces =
          ["(", "x", "^", "x", ")", "^", "2"] := by
      rw [pieces_power, List.map_cons, List.map_singleton, Written.operandPieces,
        Written.operandPieces, Written.operandPieces, pieces_var, pieces_num, htext]
      rfl
    rw [process_program rfl parse_power, hsimplify, Tree.text, ← pieces, pieces_oneStatement,
      statementPieces, hpieces]
    rfl
  refine ⟨hprinted, process_printed rfl hprinted fun t ht => ?_⟩
  have htree := Except.ok.inj (parse_power.symm.trans ht)
  have hfinite : (Literal.ofDigits "2" : Float).isFinite = true := by decide +kernel
  rw [← htree, hsimplify]
  simp [oneStatement, IsFinite, constants, hfinite]

/-- Minus one divided by zero is accepted, but what is printed for it is not: `-inf` is neither a
number nor an expression. -/
theorem not_process_printed :
    process "function f(){-1/0;}$" { mode := .program } = .ok "function f() { -inf; }" ∧
      ∃ e, process (withSentinel "function f() { -inf; }") { mode := .program } = .error e := by
  constructor
  · rw [process_program rfl parse_quotient, simplify_oneStatement,
      simplify_quotient (by decide +kernel) (by decide +kernel)]
    have htext : Literal.text (Scalar.div (Literal.negate (Literal.ofDigits "1"))
        (Literal.ofDigits "0") : Float) = "-inf" := by
      decide +kernel
    rw [Tree.text, ← pieces, pieces_oneStatement, statementPieces, pieces_num, htext]
    rfl
  · have hmark : withSentinel "function f() { -inf; }" = "function f() { -inf; }$" := by decide
    obtain ⟨e, he⟩ := parse_negativeName (α := Float)
    rw [hmark, process]
    simp only [he]
    exact ⟨_, rfl⟩

end Session

end Fluxion

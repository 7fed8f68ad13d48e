import Fluxion.Proofs.Simplify.Regroup
import Fluxion.Proofs.Tree.Spelling

/-!
# The text of a simplified tree

A simplified tree is not in general one that a text is read as: it may have powers of several
exponents. The tree with these nested is (`Entry.Shape.regroup_simplify`), as far as the constants
that simplification computes are finite, and it has the same text.
-/

namespace Fluxion

variable {α : Type} {finite finite' : α → Prop} {t : Tree α}

open Fluxion.Tree

/-- The function changes no more than the operands of what is not arithmetic. -/
def KeepsForm (f : Tree α → Tree α) : Prop :=
  ∀ {op : Operator}, op.isArithmetic = false → ∀ ts, f (node op ts) = node op (ts.map f)

section Instances

variable [Scalar α]

/-- Outside of arithmetic simplification changes operands only. -/
theorem keepsForm_simplify : KeepsForm (simplify (α := α)) :=
  fun h ts => simplify_of_not_isArithmetic h ts

/-- Outside of arithmetic the simplified operands are regrouped. -/
theorem Tree.regroup_simplify {op : Operator} (h : op.isArithmetic = false) (ts : List (Tree α)) :
    (node op ts).simplify.regroup = node op (ts.map fun t => t.simplify.regroup) := by
  have hpow : op ≠ .nary .pow := by
    rintro rfl
    cases h
  rw [simplify_of_not_isArithmetic h, regroup_of_ne_pow hpow, List.map_map]
  rfl

/-- Simplified and regrouped, trees keep the form of their statements. -/
theorem keepsForm_regroup_simplify : KeepsForm fun t : Tree α => t.simplify.regroup :=
  fun h ts => Tree.regroup_simplify h ts

end Instances

/-! ## Expressions -/

namespace Shape

variable [Scalar α]

/-- The shape of an expression with nested powers, whatever the constants are, is one that operands
do not lose. -/
theorem hereditary_regroup :
    Simplify.Hereditary fun t : Tree α => Expression (fun _ => True) t.regroup := by
  have hpair : ∀ {op : NaryOp} {x : String} {a : α},
      Expression (fun _ => True) (var x : Tree α).regroup →
      Expression (fun _ => True) (node (.nary op) [var x, num a]).regroup := by
    intro op x a hx
    rw [regroup_node]
    refine expression_nested.2 ⟨Nat.le_refl 2, List.forall_mem_cons.2 ⟨hx,
      List.forall_mem_singleton.2 ?_⟩⟩
    rw [regroup_num]
    exact .num trivial
  refine ⟨⟨fun a => ?num, fun h t ht => ?operand, fun hx _ _ => hpair hx⟩, fun _ hx => hpair hx⟩
  case num =>
    rw [regroup_num]
    exact .num trivial
  case operand =>
    rw [regroup_node] at h
    exact (expression_nested.1 h).2 _ (List.mem_map_of_mem ht)

/-- Arithmetic on expressions is simplified to one. -/
theorem expression_root {op : NaryOp} {ts : List (Tree α)}
    (hts : ∀ t ∈ ts, Expression (fun _ => True) t.regroup) :
    Expression (fun _ => True) (Simplify.root (node (.nary op) ts)).result.regroup := by
  rcases hereditary_regroup.root (Or.inr ⟨op, ts, rfl, hts⟩) with h | ⟨op', us, heq, hus⟩
  · exact h
  · have hsettled := Simplify.root_settled (node (.nary op) ts)
    rw [heq] at hsettled ⊢
    rw [regroup_node]
    refine expression_nested.2 ⟨?_, List.forall_mem_map.2 hus⟩
    rw [List.length_map]
    exact (Simplify.normalOperands_of_settled hsettled).two

/-- A simplified expression is one that is read from a text, with nested powers. -/
theorem Expression.regroup_simplify (h : Expression finite t) :
    Expression (fun _ => True) t.simplify.regroup := by
  induction h with
  | num _ => rw [simplify_num, regroup_num]; exact .num trivial
  | var hx => rw [simplify_var, regroup_var]; exact .var hx
  | nary _ _ _ ih =>
    rw [simplify_node]
    exact expression_root (List.forall_mem_map.2 ih)
  | pow _ _ ih ih' =>
    rw [simplify_node]
    exact expression_root (List.forall_mem_map.2
      (List.forall_mem_cons.2 ⟨ih, List.forall_mem_singleton.2 ih'⟩))
  | relation _ _ ih ih' =>
    rw [Tree.regroup_simplify rfl]
    exact .relation ih ih'
  | @func f t _ ih =>
    -- a function is evaluated or left as it is
    have hother : ∀ op us, node (.func f) [t.simplify] ≠ node (.nary op) us := fun _ _ h =>
      nomatch (node.inj h).1
    have hpow : Operator.func f ≠ .nary .pow := nofun
    rw [simplify_node, List.map_singleton]
    rcases Simplify.root_of_not_nary hother with hroot | ⟨a, hroot⟩
    · rw [hroot, regroup_of_ne_pow hpow]
      exact .func ih
    · rw [hroot, regroup_num]
      exact .num trivial
  | assign hx _ ih =>
    rw [Tree.regroup_simplify rfl, List.map_cons, simplify_var, regroup_var]
    exact .assign hx ih
  | call hname hlength _ ih =>
    rw [Tree.regroup_simplify rfl]
    exact .call hname (by simpa using hlength) (List.forall_mem_map.2 ih)

/-- It is one with finite constants if those of the simplified expression are finite. -/
theorem Expression.regroup_simplify_finite (h : Expression finite t)
    (ht : t.simplify.IsFinite finite') : Expression finite' t.simplify.regroup := by
  refine h.regroup_simplify.restrict ?_
  rw [IsFinite, constants_regroup]
  exact ht

end Shape

/-! ## Statements -/

namespace KeepsForm

variable {f : Tree α → Tree α} (hf : KeepsForm f)

include hf

theorem giveBack (t : Tree α) : f (node .giveBack [t]) = node .giveBack [f t] := hf rfl _

theorem sequence (ts : List (Tree α)) : f (node .sequence ts) = node .sequence (ts.map f) :=
  hf rfl _

/-- An alternative without a second block keeps its form. -/
theorem ifThen (c : Tree α) (yes : List (Tree α)) :
    f (node .ifElse [c, node .sequence yes]) =
      node .ifElse [f c, node .sequence (yes.map f)] := by
  rw [hf rfl, List.map_cons, List.map_singleton, hf.sequence]

theorem ifThenElse (c : Tree α) (yes no : List (Tree α)) :
    f (node .ifElse [c, node .sequence yes, node .sequence no]) =
      node .ifElse [f c, node .sequence (yes.map f), node .sequence (no.map f)] := by
  rw [hf rfl, List.map_cons, List.map_cons, List.map_singleton, hf.sequence, hf.sequence]

theorem whileLoop (c : Tree α) (body : List (Tree α)) :
    f (node .whileLoop [c, node .sequence body]) =
      node .whileLoop [f c, node .sequence (body.map f)] := by
  rw [hf rfl, List.map_cons, List.map_singleton, hf.sequence]

theorem forLoop (first c step : Tree α) (body : List (Tree α)) :
    f (node .forLoop [first, c, step, node .sequence body]) =
      node .forLoop [f first, f c, f step, node .sequence (body.map f)] := by
  rw [hf rfl, List.map_cons, List.map_cons, List.map_cons, List.map_singleton, hf.sequence]

/-- The parameters are variables, which do not change, and the body is a sequence. -/
theorem define (hvar : ∀ x, f (var x) = var x) (name : String) (parameters : List String)
    (body : List (Tree α)) :
    f (node (.define name) (parameters.map var ++ [node .sequence body])) =
      node (.define name) (parameters.map var ++ [node .sequence (body.map f)]) := by
  rw [hf rfl, List.map_append, List.map_singleton, hf.sequence, List.map_map]
  exact congrArg (fun us => node _ (us ++ _)) (List.map_congr_left fun x _ => hvar x)

end KeepsForm

section Statements

variable [Scalar α]

/-- Every statement is simplified to one, if the constants that come out are finite. -/
theorem Shape.Statement.regroup_simplify (h : Statement finite t)
    (ht : t.simplify.IsFinite finite') : Statement finite' t.simplify.regroup := by
  -- a block keeps its form if each of its statements does
  have hblock : ∀ {ts : List (Tree α)},
      (∀ t ∈ ts, t.simplify.IsFinite finite' → Statement finite' t.simplify.regroup) →
      (node .sequence (ts.map simplify)).IsFinite finite' →
      ∀ t ∈ ts.map fun t => t.simplify.regroup, Statement finite' t := by
    intro ts ih hts
    rw [isFinite_node, List.forall_mem_map] at hts
    exact List.forall_mem_map.2 fun t ht => ih t ht (hts t ht)
  induction h with
  | expression h => exact .expression (h.regroup_simplify_finite ht)
  | giveBack h =>
    rw [keepsForm_simplify.giveBack, isFinite_node, List.forall_mem_cons] at ht
    rw [keepsForm_regroup_simplify.giveBack]
    exact .giveBack (h.regroup_simplify_finite ht.1)
  | ifThen hc _ ih =>
    rw [keepsForm_simplify.ifThen, isFinite_node, List.forall_mem_cons, List.forall_mem_cons] at ht
    rw [keepsForm_regroup_simplify.ifThen]
    exact .ifThen (hc.regroup_simplify_finite ht.1) (hblock ih ht.2.1)
  | ifThenElse hc _ _ ih ih' =>
    rw [keepsForm_simplify.ifThenElse, isFinite_node, List.forall_mem_cons, List.forall_mem_cons,
      List.forall_mem_cons] at ht
    rw [keepsForm_regroup_simplify.ifThenElse]
    exact .ifThenElse (hc.regroup_simplify_finite ht.1) (hblock ih ht.2.1) (hblock ih' ht.2.2.1)
  | whileLoop hc _ ih =>
    rw [keepsForm_simplify.whileLoop, isFinite_node, List.forall_mem_cons, List.forall_mem_cons]
      at ht
    rw [keepsForm_regroup_simplify.whileLoop]
    exact .whileLoop (hc.regroup_simplify_finite ht.1) (hblock ih ht.2.1)
  | forLoop hfirst hc hstep _ ih =>
    rw [keepsForm_simplify.forLoop, isFinite_node, List.forall_mem_cons, List.forall_mem_cons,
      List.forall_mem_cons, List.forall_mem_cons] at ht
    rw [keepsForm_regroup_simplify.forLoop]
    exact .forLoop (hfirst.regroup_simplify_finite ht.1) (hc.regroup_simplify_finite ht.2.1)
      (hstep.regroup_simplify_finite ht.2.2.1) (hblock ih ht.2.2.2.1)

/-- A definition stays one that a text can be read as, as far as its constants are finite. -/
theorem Shape.Definition.regroup_simplify (h : Definition finite t)
    (ht : t.simplify.IsFinite finite') : Definition finite' t.simplify.regroup := by
  cases h with
  | mk hname hparameters hbody =>
    rw [keepsForm_simplify.define simplify_var, isFinite_node, List.forall_mem_append,
      List.forall_mem_singleton, isFinite_node] at ht
    rw [keepsForm_regroup_simplify.define fun x => by rw [simplify_var, regroup_var]]
    refine .mk hname hparameters (List.forall_mem_map.2 fun t hmem => ?_)
    exact (hbody t hmem).regroup_simplify (ht.2 _ (List.mem_map_of_mem hmem))

/-- Simplified and with nested powers a tree keeps the shape of its entry, if the constants that
come out are finite. -/
theorem Entry.Shape.regroup_simplify {entry : Entry} (h : entry.Shape finite t)
    (ht : t.simplify.IsFinite finite') : entry.Shape finite' t.simplify.regroup := by
  cases entry with
  | expression => exact Shape.Expression.regroup_simplify_finite h ht
  | statements | program =>
    obtain ⟨ts, rfl, hts⟩ := h
    rw [keepsForm_simplify.sequence, isFinite_node, List.forall_mem_map] at ht
    refine ⟨_, keepsForm_regroup_simplify.sequence ts, List.forall_mem_map.2 fun t hmem => ?_⟩
    exact (hts t hmem).regroup_simplify (ht t hmem)

/-! ## Texts -/

variable [Literal α]

/-- Nested powers are written like one power with several exponents. -/
theorem Shape.Expression.pieces_regroup_simplify (h : Expression finite t) :
    t.simplify.regroup.pieces = t.simplify.pieces :=
  pieces_regroup h.regroup_simplify

omit [Scalar α] in
/-- Whether a semicolon follows depends on the operator. -/
theorem statementPieces_regroup (h : t.regroup.pieces = t.pieces) :
    t.regroup.statementPieces = t.statementPieces := by
  show Written.statementText t.regroup t.regroup.pieces = Written.statementText t t.pieces
  rw [h, Written.statementText, Written.statementText, operator?_regroup]

/-- Statements that are written the same one by one are so in a row. -/
theorem sequencePieces_regroup_simplify {ts : List (Tree α)}
    (h : ∀ t ∈ ts, t.simplify.regroup.pieces = t.simplify.pieces) :
    sequencePieces (ts.map fun t => t.simplify.regroup) = sequencePieces (ts.map simplify) := by
  have hpieces : (ts.map fun t => t.simplify.regroup).map statementPieces =
      (ts.map simplify).map statementPieces := by
    rw [List.map_map, List.map_map]
    exact List.map_congr_left fun t ht => statementPieces_regroup (h t ht)
  rw [sequencePieces, sequencePieces, hpieces]

/-- A simplified statement is written like the one with nested powers. -/
theorem Shape.Statement.pieces_regroup_simplify (h : Statement finite t) :
    t.simplify.regroup.pieces = t.simplify.pieces := by
  induction h with
  | expression h => exact h.pieces_regroup_simplify
  | giveBack h =>
    rw [keepsForm_regroup_simplify.giveBack, keepsForm_simplify.giveBack, pieces_giveBack,
      pieces_giveBack, h.pieces_regroup_simplify]
  | ifThen hc _ ih =>
    rw [keepsForm_regroup_simplify.ifThen, keepsForm_simplify.ifThen, pieces_ifThen, pieces_ifThen,
      hc.pieces_regroup_simplify, sequencePieces_regroup_simplify ih]
  | ifThenElse hc _ _ ih ih' =>
    rw [keepsForm_regroup_simplify.ifThenElse, keepsForm_simplify.ifThenElse, pieces_ifThenElse,
      pieces_ifThenElse, hc.pieces_regroup_simplify, sequencePieces_regroup_simplify ih,
      sequencePieces_regroup_simplify ih']
  | whileLoop hc _ ih =>
    rw [keepsForm_regroup_simplify.whileLoop, keepsForm_simplify.whileLoop, pieces_whileLoop,
      pieces_whileLoop, hc.pieces_regroup_simplify, sequencePieces_regroup_simplify ih]
  | forLoop hfirst hc hstep _ ih =>
    rw [keepsForm_regroup_simplify.forLoop, keepsForm_simplify.forLoop, pieces_forLoop,
      pieces_forLoop, hfirst.pieces_regroup_simplify, hc.pieces_regroup_simplify,
      hstep.pieces_regroup_simplify, sequencePieces_regroup_simplify ih]

/-- A simplified definition and its regrouped form have the same text. -/
theorem Shape.Definition.pieces_regroup_simplify (h : Definition finite t) :
    t.simplify.regroup.pieces = t.simplify.pieces := by
  cases h with
  | mk _ _ hbody =>
    rw [keepsForm_regroup_simplify.define fun x => by rw [simplify_var, regroup_var],
      keepsForm_simplify.define simplify_var, pieces_define, pieces_define,
      sequencePieces_regroup_simplify fun t ht => (hbody t ht).pieces_regroup_simplify]

/-- The text of a simplified tree is that of the tree with nested powers. -/
theorem Entry.Shape.text_regroup_simplify {entry : Entry} (h : entry.Shape finite t) :
    t.simplify.regroup.text = t.simplify.text := by
  have hpieces : t.simplify.regroup.pieces = t.simplify.pieces := by
    cases entry with
    | expression => exact Shape.Expression.pieces_regroup_simplify h
    | statements | program =>
      obtain ⟨ts, rfl, hts⟩ := h
      rw [keepsForm_regroup_simplify.sequence, keepsForm_simplify.sequence, pieces_sequence,
        pieces_sequence,
        sequencePieces_regroup_simplify fun t ht => (hts t ht).pieces_regroup_simplify]
  exact congrArg String.join hpieces

end Statements

end Fluxion

import Fluxion.Expr.Evaluation
import Fluxion.Grammar.Reading
import Fluxion.Proofs.Expr.Trees
import Fluxion.Proofs.Grammar.Choice
import Fluxion.Proofs.Grammar.Mapped
import Mathlib

/-!
# Operators nested to the left

The grammar makes one node of a run of one operator. Here is the same grammar with a node of two
operands for every single operator, each the left operand of the next (`binaryExpression`). What it
reads is what `expression` reads with all its nodes nested to the left
(`complete_binaryExpression`): an operand in parentheses has been nested before, and takes no
further operands. Nodes that are nested to the left have the same value, or lack the same variable,
as operators are applied from the left anyway (`Expr.eval_nestLeft`).
-/

namespace Fluxion

variable {α : Type}

/-! ## The grammar of operators with two operands -/

namespace Grammar

open Fluxion.Parser

/-- A first operand with the operators and operands that follow it, nested to the left. -/
def leftNested (first : Tree α) (others : List (NaryOp × Tree α)) : Tree α :=
  others.foldl (fun t item => .node (.nary item.1) [t, item.2]) first

/-- Operands with operators between them, and a node for each operator. -/
def binaryChain (expected : Expectation) (op? : Token → Option NaryOp) (operand : Parser (Tree α)) :
    Parser (Tree α) := do
  let first ← attempt operand
  let others ← many (operation expected op? operand)
  return leftNested first others

variable [Literal α]

/-- Factors. -/
def binaryProductOf (expression : Parser (Tree α)) : Parser (Tree α) :=
  binaryChain .multiplicative multiplicative? (powerOf expression)

/-- Terms. -/
def binarySumOf (expression : Parser (Tree α)) : Parser (Tree α) :=
  binaryChain .additive additive? (binaryProductOf expression)

/-- A sum, compared with another perhaps. -/
def binaryExpressionOf (expression : Parser (Tree α)) : Parser (Tree α) := do
  let left ← attempt (binarySumOf expression)
  let right ← optional do
    let r ← satisfy .comparison relation?
    let t ← binarySumOf expression
    return (r, t)
  match right with
  | none => return left
  | some (r, t) => return .node (.relation r) [left, t]

/-- An expression whose operators between terms and factors have two operands each. -/
def binaryExpression : Parser (Tree α) := fix binaryExpressionOf

end Grammar

/-! ## Trees nested to the left -/

namespace Tree

/-- An operator on operands, where arithmetic on more than two is nested to the left. -/
def nestedNode : Operator → List (Tree α) → Tree α
  | .nary op, t :: ts => ts.foldl (fun s u => node (.nary op) [s, u]) t
  | op, ts => node op ts

/-- The tree with all arithmetic nested to the left. -/
def nestLeft : Tree α → Tree α
  | num a => num a
  | var x => var x
  | node op ts => nestedNode op (ts.map nestLeft)

/-- One more operand takes the node so far for its left. -/
theorem nestedNode_concat (op : NaryOp) (t u : Tree α) (ts : List (Tree α)) :
    nestedNode (.nary op) (t :: ts ++ [u]) =
      node (.nary op) [nestedNode (.nary op) (t :: ts), u] := by
  rw [List.cons_append, nestedNode, nestedNode, List.foldl_append, List.foldl_cons, List.foldl_nil]

/-- Only the arguments of a call are nested. -/
theorem nestLeft_call (name : String) (ts : List (Tree α)) :
    (node (Grammar.callOperator name ts) ts).nestLeft =
      node (Grammar.callOperator name (ts.map nestLeft)) (ts.map nestLeft) := by
  rw [nestLeft]
  unfold Grammar.callOperator
  cases Func.ofName? name with
  | none => rfl
  | some f => rcases ts with _ | ⟨t, _ | ⟨u, us⟩⟩ <;> rfl

end Tree

namespace Grammar

open Fluxion.Parser Fluxion.Tree

/-- The items after the first operand, with their operands nested to the left. -/
def nestItems (items : List (NaryOp × Tree α)) : List (NaryOp × Tree α) :=
  items.map (Prod.map id nestLeft)

/-- Whether the next operator extends the node or wraps it, nesting adds one more node. -/
theorem nestLeft_extend (op : NaryOp) (t : Tree α) (ts : List (Tree α))
    (items : List (NaryOp × Tree α)) :
    (extend op (t :: ts) items).nestLeft =
      leftNested (nestedNode (.nary op) ((t :: ts).map nestLeft)) (nestItems items) := by
  induction items generalizing op t ts with
  | nil => rw [extend, nestLeft]; rfl
  | cons item more ih =>
    obtain ⟨next, u⟩ := item
    rw [extend]
    by_cases hsame : next = op
    · subst hsame
      rw [if_pos rfl, List.cons_append, ih, ← List.cons_append, List.map_append, List.map_cons,
        List.map_singleton, nestedNode_concat]
      rfl
    · rw [if_neg hsame, ih, List.map_cons, List.map_singleton, nestLeft]
      rfl

/-- Operands that are grouped and then nested are nested at once. -/
theorem nestLeft_grouped (first : Tree α) (items : List (NaryOp × Tree α)) :
    (grouped first items).nestLeft = leftNested first.nestLeft (nestItems items) := by
  cases items with
  | nil => rfl
  | cons item more =>
    obtain ⟨op, t⟩ := item
    rw [grouped, nestLeft_extend]
    rfl

/-! ## One grammar read as the other -/

theorem operation_mapped (expected : Expectation) (op? : Token → Option NaryOp)
    (operand : Parser (Tree α)) : operation expected op? (mapped nestLeft operand) =
      mapped (Prod.map id nestLeft) (operation expected op? operand) := by
  simp only [operation, bind_mapped, mapped_bind, mapped_pure]
  rfl

/-- The chain of two operands each reads what the other chain reads, with the nodes nested. -/
theorem binaryChain_mapped (expected : Expectation) (op? : Token → Option NaryOp)
    (operand : Parser (Tree α)) : binaryChain expected op? (mapped nestLeft operand) =
      mapped nestLeft (chain expected op? operand) := by
  show _ = mapped nestLeft (attempt operand >>= fun first =>
    many (operation expected op? operand) >>= fun others => pure (grouped first others))
  simp only [binaryChain, operation_mapped, attempt_mapped, many_mapped, bind_mapped, mapped_bind,
    mapped_pure, nestLeft_grouped, nestItems]

theorem parenthesizedOf_mapped (q : Parser (Tree α)) :
    parenthesizedOf (mapped nestLeft q) = mapped nestLeft (parenthesizedOf q) := by
  simp only [parenthesizedOf, bind_mapped, mapped_bind, mapped_pure]

theorem assignmentOf_mapped (q : Parser (Tree α)) :
    assignmentOf (mapped nestLeft q) = mapped nestLeft (assignmentOf q) := by
  simp only [assignmentOf, bind_mapped, mapped_bind, mapped_pure, nestLeft, List.map_cons,
    List.map_nil, nestedNode]

/-- The arguments of a call are nested one by one, and its operator stays. -/
theorem callOf_mapped (q : Parser (Tree α)) :
    callOf (mapped nestLeft q) = mapped nestLeft (callOf q) := by
  simp only [callOf, separated_mapped, bind_mapped, mapped_bind, mapped_pure, nestLeft_call]

theorem nameLeaf_mapped : mapped nestLeft (nameLeaf : Parser (Tree α)) = nameLeaf := by
  simp only [nameLeaf, mapped_bind, mapped_pure, nestLeft]

variable [Literal α]

theorem constant_mapped : mapped nestLeft (constant : Parser (Tree α)) = constant := by
  simp only [constant, mapped_bind, mapped_pure, nestLeft]

/-- None of the alternatives of a part makes arithmetic of its own. -/
theorem partOf_mapped (q : Parser (Tree α)) :
    partOf (mapped nestLeft q) = mapped nestLeft (partOf q) := by
  simp only [partOf, ← orElse_mapped, parenthesizedOf_mapped, assignmentOf_mapped, callOf_mapped,
    constant_mapped, nameLeaf_mapped, mapped_refuse]

theorem powerOf_mapped (q : Parser (Tree α)) :
    powerOf (mapped nestLeft q) = mapped nestLeft (powerOf q) := by
  simp only [powerOf, partOf_mapped, attempt_mapped, ← mapped_bind, optional_mapped, bind_mapped]
  rw [mapped_bind]
  congr 1
  funext base
  rw [mapped_bind]
  congr 1
  funext exponent
  cases exponent with
  | none => rfl
  | some t => simp only [Option.map_some, mapped_pure, nestLeft]; rfl

theorem binarySumOf_mapped (q : Parser (Tree α)) :
    binarySumOf (mapped nestLeft q) = mapped nestLeft (sumOf q) := by
  rw [binarySumOf, binaryProductOf, powerOf_mapped, binaryChain_mapped, binaryChain_mapped]
  rfl

theorem binaryExpressionOf_mapped (q : Parser (Tree α)) :
    binaryExpressionOf (mapped nestLeft q) = mapped nestLeft (expressionOf q) := by
  -- behind the comparison mark the two grammars read related sums
  have hright : (satisfy .comparison relation? >>= fun r =>
      mapped nestLeft (sumOf q) >>= fun t => pure (r, t)) =
      mapped (Prod.map id nestLeft) (satisfy .comparison relation? >>= fun r =>
        sumOf q >>= fun t => pure (r, t)) := by
    simp only [bind_mapped, mapped_bind, mapped_pure]
    rfl
  rw [binaryExpressionOf, binarySumOf_mapped, hright, attempt_mapped, optional_mapped, bind_mapped,
    expressionOf, mapped_bind]
  congr 1
  funext left
  rw [bind_mapped, mapped_bind]
  congr 1
  funext right
  rcases right with _ | ⟨r, t⟩
  · rfl
  · simp only [Option.map_some, Prod.map, mapped_pure, nestLeft]
    rfl

/-- The two grammars read the same texts, as trees that differ in nesting. -/
theorem binaryExpression_eq :
    (binaryExpression : Parser (Tree α)) = mapped nestLeft expression :=
  fix_mapped binaryExpressionOf_mapped

/-- The reading with two operands for each operator is the usual one nested to the left. -/
theorem complete_binaryExpression (r : Reading) :
    (r.complete (binaryExpression : Parser (Tree α))).1 =
      (r.complete expression).1.map nestLeft := by
  rw [binaryExpression_eq, Reading.complete_mapped]

/-- An operand in parentheses stays an operand. -/
example : ((Reading.start "a-b-(c-d)$").complete (binaryExpression : Parser (Tree Float))).1 =
    .ok (.node (.nary .sub) [.node (.nary .sub) [.var "a", .var "b"],
      .node (.nary .sub) [.var "c", .var "d"]]) := by
  cbv

end Grammar

/-! ## Expressions nested to the left -/

/-- Two functions that agree through `g` fail and go well together. -/
theorem mapM_map_congr {β γ δ ε : Type} {f : γ → Except ε δ} {g : β → γ} {d : β → Except ε δ}
    {bs : List β} (h : ∀ b ∈ bs, f (g b) = d b) : (bs.map g).mapM f = bs.mapM d := by
  induction bs with
  | nil => rfl
  | cons b bs ih =>
    obtain ⟨hb, hbs⟩ := List.forall_mem_cons.1 h
    rw [List.map_cons, List.mapM_cons, List.mapM_cons, hb, ih hbs]

namespace Expr

/-- The expression with all arithmetic nested to the left. -/
def nestLeft : Expr α → Expr α
  | num a => num a
  | var x => var x
  | nary op e es => (es.map nestLeft).foldl (binary op) e.nestLeft
  | func f e => func f e.nestLeft

/-- All arithmetic in the expression is on two operands. -/
def IsBinary (e : Expr α) : Prop := ∀ op d ds, nary op d ds ∈ e.parts → ds.length = 1

theorem toTree_foldl_binary (op : NaryOp) (e : Expr α) (es : List (Expr α)) :
    (es.foldl (binary op) e).toTree = Tree.nestedNode (.nary op) ((e :: es).map toTree) := by
  induction es generalizing e with
  | nil => rfl
  | cons d es ih =>
    rw [List.foldl_cons, ih, List.map_cons, binary, toTree]
    rfl

/-- To nest an expression is to nest its tree. -/
theorem toTree_nestLeft (e : Expr α) : e.nestLeft.toTree = e.toTree.nestLeft := by
  induction e using operands_induction with
  | num a => simp only [nestLeft, toTree, Tree.nestLeft]
  | var x => simp only [nestLeft, toTree, Tree.nestLeft]
  | nary op e es ihe ihes =>
    have hes : (es.map nestLeft).map toTree = (es.map toTree).map Tree.nestLeft := by
      rw [List.map_map, List.map_map]
      exact List.map_congr_left ihes
    rw [nestLeft, toTree_foldl_binary, List.map_cons, ihe, hes, toTree, Tree.nestLeft,
      List.map_cons]
  | func f e ih =>
    rw [nestLeft, toTree, ih, toTree, Tree.nestLeft]
    rfl

/-- An operator on two operands keeps arithmetic to two operands. -/
theorem IsBinary.binary {d e : Expr α} (op : NaryOp) (hd : d.IsBinary) (he : e.IsBinary) :
    (binary op d e).IsBinary := by
  intro op' c cs hmem
  simp only [Expr.binary, parts, List.map_cons, List.map_nil, List.flatten_cons, List.flatten_nil,
    List.append_nil, List.mem_cons, List.mem_append, nary.injEq] at hmem
  rcases hmem with ⟨-, -, rfl⟩ | hmem | hmem
  · rfl
  · exact hd op' c cs hmem
  · exact he op' c cs hmem

/-- Nested to the left, all arithmetic is on two operands. -/
theorem isBinary_nestLeft (e : Expr α) : e.nestLeft.IsBinary := by
  induction e using operands_induction with
  | num a => intro op d ds hmem; simp [nestLeft, parts] at hmem
  | var x => intro op d ds hmem; simp [nestLeft, parts] at hmem
  | nary op e es ihe ihes =>
    rw [nestLeft]
    generalize e.nestLeft = d at ihe
    induction es generalizing d with
    | nil => exact ihe
    | cons c es ih =>
      obtain ⟨hc, hes⟩ := List.forall_mem_cons.1 ihes
      exact ih hes _ (ihe.binary op hc)
  | func f e ih =>
    intro op d ds hmem
    simp only [nestLeft, parts, List.mem_cons, reduceCtorEq, false_or] at hmem
    exact ih op d ds hmem

variable [Scalar α]

theorem eval_binary (bindings : Bindings α) (op : NaryOp) (d e : Expr α) :
    (binary op d e).eval bindings = do
      let a ← d.eval bindings
      let b ← e.eval bindings
      return op.apply a b := by
  rw [binary, eval]
  simp only [List.mapM_cons, List.mapM_nil, bind_assoc, pure_bind, List.foldl_cons, List.foldl_nil]

/-- A chain of operators from the left has its operands evaluated and put together from the left. -/
theorem eval_foldl_binary (bindings : Bindings α) (op : NaryOp) (e : Expr α) (es : List (Expr α)) :
    (es.foldl (binary op) e).eval bindings = (nary op e es).eval bindings := by
  induction es generalizing e with
  | nil =>
    rw [List.foldl_nil, eval]
    simp only [List.mapM_nil, pure_bind, List.foldl_nil, bind_pure]
  | cons d es ih =>
    rw [List.foldl_cons, ih, eval, eval_binary, eval]
    simp only [List.mapM_cons, bind_assoc, pure_bind, List.foldl_cons]

/-- Nesting changes neither the value nor which variable is missing first. -/
theorem eval_nestLeft (bindings : Bindings α) (e : Expr α) :
    e.nestLeft.eval bindings = e.eval bindings := by
  induction e using operands_induction with
  | num a => rw [nestLeft]
  | var x => rw [nestLeft]
  | nary op e es ihe ihes =>
    have hes : (es.map nestLeft).mapM (eval bindings) = es.mapM (eval bindings) :=
      mapM_map_congr ihes
    rw [nestLeft, eval_foldl_binary, eval, ihe, hes, eval]
  | func f e ih => rw [nestLeft, eval, ih, eval]

end Expr

/-! ## Values of the two readings -/

open Grammar Fluxion.Expr

variable [Scalar α] [Literal α]

/-- An expression that is read from a text has, under all values for its variables, the result that
the text has where every operator is read with two operands and nested to the left. -/
theorem eval_of_leftNested {text : String} {t : Tree α} {e : Expr α}
    (hparse : Entry.expression.parse text = .ok t) (hexpr : t.toExpr = .ok e) :
    ∃ (t' : Tree α) (e' : Expr α), ((Reading.start text).complete binaryExpression).1 = .ok t' ∧
      t'.toExpr = .ok e' ∧ e'.IsBinary ∧
      ∀ bindings : Bindings α, e.eval bindings = e'.eval bindings := by
  have hread : ((Reading.start text).complete (expression : Parser (Tree α))).1 = .ok t := by
    unfold Entry.parse at hparse
    split at hparse
    · rename_i u hu
      cases hparse
      exact hu
    · cases hparse
  obtain rfl := toTree_of_toExpr hexpr
  refine ⟨e.nestLeft.toTree, e.nestLeft, ?_, toExpr_toTree _, isBinary_nestLeft e, ?_⟩
  · rw [complete_binaryExpression, hread, toTree_nestLeft]
    rfl
  · exact fun bindings => (eval_nestLeft bindings e).symm

/-- Two runs of one operator, one of them in parentheses, and a third of both signs between factors.
-/
theorem eval_of_leftNested_mixed : ∃ (t : Tree Float) (e : Expr Float),
    Entry.expression.parse "a-b-(c-d)+e/f*g$" = .ok t ∧ t.toExpr = .ok e ∧
    ∃ (t' : Tree Float) (e' : Expr Float),
      ((Reading.start "a-b-(c-d)+e/f*g$").complete binaryExpression).1 = .ok t' ∧
      t'.toExpr = .ok e' ∧ e'.IsBinary ∧
      ∀ bindings : Bindings Float, e.eval bindings = e'.eval bindings := by
  have hparse : Entry.expression.parse "a-b-(c-d)+e/f*g$" = .ok (.node (.nary .add)
      [.node (.nary .sub) [.var "a", .var "b", .node (.nary .sub) [.var "c", .var "d"]],
        .node (.nary .mul) [.node (.nary .div) [.var "e", .var "f"], .var "g"]] : Tree Float) := by
    cbv
  have hexpr : (.node (.nary .add)
      [.node (.nary .sub) [.var "a", .var "b", .node (.nary .sub) [.var "c", .var "d"]],
        .node (.nary .mul) [.node (.nary .div) [.var "e", .var "f"],
          .var "g"]] : Tree Float).toExpr =
      .ok (.nary .add (.nary .sub (.var "a") [.var "b", .nary .sub (.var "c") [.var "d"]])
        [.nary .mul (.nary .div (.var "e") [.var "f"]) [.var "g"]]) := by
    simp [Tree.toExpr, ofNode, pure, Except.pure, bind, Except.bind]
  exact ⟨_, _, hparse, hexpr, eval_of_leftNested hparse hexpr⟩

end Fluxion

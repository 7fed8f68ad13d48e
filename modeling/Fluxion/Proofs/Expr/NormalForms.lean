import Fluxion.Expr.HigherDerivative
import Fluxion.Proofs.Simplify.Settled

/-!
# Normal forms of expressions

What simplification leaves of an expression is an expression again, with no variable that was not
there. So the derivative of a higher order is that of one order less of the simplified derivative,
and never refused.
-/

namespace Fluxion

variable {α : Type}

namespace Tree

/-- The tree stands for an expression. -/
def IsExpr (t : Tree α) : Prop := ∃ e : Expr α, e.toTree = t

theorem isExpr_num (a : α) : (num a).IsExpr := ⟨.num a, by rw [Expr.toTree]⟩

theorem isExpr_var (x : String) : (var x : Tree α).IsExpr := ⟨.var x, by rw [Expr.toTree]⟩

/-- Arithmetic is an expression if it has operands, all of them expressions. -/
theorem isExpr_nary_iff {op : NaryOp} {ts : List (Tree α)} :
    (node (.nary op) ts).IsExpr ↔ ts ≠ [] ∧ ∀ t ∈ ts, t.IsExpr := by
  constructor
  · rintro ⟨e, he⟩
    cases e with
    | num a | var x | func f e => rw [Expr.toTree] at he; cases he
    | nary op' e es =>
      rw [Expr.toTree] at he
      cases he
      refine ⟨List.cons_ne_nil _ _, List.forall_mem_cons.2 ⟨⟨e, rfl⟩, fun t ht => ?_⟩⟩
      obtain ⟨d, -, rfl⟩ := List.mem_map.1 ht
      exact ⟨d, rfl⟩
  · rintro ⟨hne, hts⟩
    obtain ⟨es, rfl, -⟩ := Expr.exists_map_toTree (P := fun _ => True) fun t ht => by
      obtain ⟨e, he⟩ := hts t ht
      exact ⟨e, he, trivial⟩
    obtain ⟨e, es, rfl⟩ := List.exists_cons_of_ne_nil fun h => hne (List.map_eq_nil_iff.2 h)
    exact ⟨.nary op e es, by rw [Expr.toTree, List.map_cons]⟩

/-- A function stands for an expression if its operand does. -/
theorem isExpr_func_iff {f : Func} {t : Tree α} : (node (.func f) [t]).IsExpr ↔ t.IsExpr := by
  constructor
  · rintro ⟨e, he⟩
    cases e with
    | num a | var x | nary op e es => rw [Expr.toTree] at he; cases he
    | func f' e =>
      rw [Expr.toTree] at he
      cases he
      exact ⟨e, rfl⟩
  · rintro ⟨e, rfl⟩
    exact ⟨.func f e, by rw [Expr.toTree]⟩

end Tree

variable [Scalar α]

namespace Simplify

/-- Operands of expressions are expressions, and so is all that the rules put in. -/
theorem hereditary_isExpr : Hereditary (Tree.IsExpr (α := α)) where
  num := Tree.isExpr_num
  operand h := (Tree.isExpr_nary_iff.1 h).2
  term hx _ _ := Tree.isExpr_nary_iff.2 ⟨List.cons_ne_nil _ _,
    List.forall_mem_cons.2 ⟨hx, List.forall_mem_singleton.2 (Tree.isExpr_num _)⟩⟩
  power _ hx := Tree.isExpr_nary_iff.2 ⟨List.cons_ne_nil _ _,
    List.forall_mem_cons.2 ⟨hx, List.forall_mem_singleton.2 (Tree.isExpr_num _)⟩⟩

/-- An operator to which no rule applies has operands. -/
theorem isExpr_of_settled {t : Tree α} (h : BelowRoot Tree.IsExpr t) (hsettled : t.Settled) :
    t.IsExpr := by
  rcases h with h | ⟨op, ts, rfl, hts⟩
  · exact h
  · refine Tree.isExpr_nary_iff.2 ⟨?_, hts⟩
    rintro rfl
    have hnone : spliceUp (.node (.nary op) ([] : List (Tree α))) = none :=
      settled_iff.1 hsettled spliceUp (by simp [rewrites])
    cases hnone

/-- The rules make trees of expressions from such. -/
theorem isExpr_root {t : Tree α} (h : BelowRoot Tree.IsExpr t) : (root t).result.IsExpr :=
  isExpr_of_settled (hereditary_isExpr.root h) (root_settled t)

end Simplify

namespace Expr

open Simplify

/-- The normal form of an expression is an expression. -/
theorem isExpr_normalForm (e : Expr α) : e.normalForm.IsExpr := by
  induction e using operands_induction with
  | num a => rw [normalForm_num]; exact Tree.isExpr_num a
  | var x => rw [normalForm_var]; exact Tree.isExpr_var x
  | nary op e es ihe ihes =>
    rw [normalForm_nary]
    refine isExpr_root (Or.inr ⟨op, _, rfl, fun t ht => ?_⟩)
    obtain ⟨d, hd, rfl⟩ := List.mem_map.1 ht
    exact (List.forall_mem_cons.2 ⟨ihe, ihes⟩ : ∀ d ∈ e :: es, d.normalForm.IsExpr) d hd
  | func f e ih =>
    rw [normalForm_func]
    exact isExpr_root (Or.inl (Tree.isExpr_func_iff.2 ih))

/-- An exponent that is a constant is lowered by one. -/
theorem normalForm_sub_one [LawfulScalar α] {e : Expr α} {a : α} (h : e.normalForm = .num a) :
    (binary .sub e one).normalForm = .num (Scalar.sub a (Scalar.ofNat 1)) := by
  rw [binary, normalForm_nary, List.map_cons, List.map_singleton, h, one, normalForm_num,
    root_of_isArithmetic rfl, (reduces_sub_one a).result]

/-- Higher derivatives are derivatives of normal forms. -/
theorem nthDerivative_toTree_succ (v : String) (e : Expr α) (n : ℕ) :
    e.toTree.nthDerivative v (n + 1) = (e.derivative v).normalForm.nthDerivative v n := by
  rw [Tree.nthDerivative, toExpr_toTree]
  rfl

end Expr

end Fluxion

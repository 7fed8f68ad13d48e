import Fluxion.Proofs.Expr.Polynomials
import Fluxion.Proofs.Expr.Unchecked

/-!
# Variables that do not occur

Differentiated with respect to a variable that it does not have, an expression becomes the constant
zero (`Tree.nthDerivative_of_not_mem`). The derivative itself is a tree with zeros and copies of the
expression in it, and what the copies are worth, if anything, is of no account: a zero factor and a
zero dividend are caught before any value is computed, so that no zero meets an infinity.
-/

namespace Fluxion

variable {α : Type} [Scalar α]

namespace Expr

open Simplify

variable [LawfulScalar α] {v : String} {e : Expr α}

/-- The derivative simplifies to zero. -/
theorem normalForm_derivative_of_not_mem (hv : v ∉ e.leafNames) :
    (e.derivative v).normalForm = .num (Scalar.ofNat 0) := by
  have hfree : e.NamesIn (· ≠ v) := fun x hx hxv => hv (hxv ▸ hx)
  obtain ⟨a, hnull, rfl⟩ := isNull_derivative counting_eq hfree
  exact hnull

/-- So do those that follow, the derivative of zero being zero. -/
theorem nthDerivative_succ_of_not_mem (hv : v ∉ e.leafNames) (n : ℕ) :
    e.toTree.nthDerivative v (n + 1) = .ok (.num (Scalar.ofNat 0)) := by
  rw [nthDerivative_toTree_succ, normalForm_derivative_of_not_mem hv]
  have hcounts : Counting fun (a : α) n => a = Scalar.ofNat n := counting_eq
  obtain ⟨a, hzero, rfl⟩ := nthDerivative_of_isNull (v := v) hcounts (isNull_zero hcounts) n
  exact hzero

/-- The unchecked derivatives are the same, since they are so for every expression. -/
theorem nthDerivative?_succ_of_not_mem (hv : v ∉ e.leafNames) (n : ℕ) :
    e.toTree.nthDerivative? v (n + 1) = some (.num (Scalar.ofNat 0)) := by
  obtain ⟨r, hunchecked, hchecked, -⟩ := nthDerivative?_toTree v (n + 1) e
  rw [nthDerivative_succ_of_not_mem hv] at hchecked
  rw [hunchecked, ← Except.ok.inj hchecked]

end Expr

namespace Tree

open Fluxion.Expr

/-- With respect to a variable that it does not have, the simplified derivative of an expression and
all its derivatives of order one or more are the constant zero, whether or not the expression is
checked beforehand. -/
theorem nthDerivative_of_not_mem [LawfulScalar α] {t : Tree α} {e : Expr α} (h : t.toExpr = .ok e)
    {v : String} (hv : v ∉ t.leafNames) :
    e.simplifiedDerivative v = num (Scalar.ofNat 0) ∧
      (∃ d, t.derivative? v = some d ∧ d.simplify = num (Scalar.ofNat 0)) ∧
      ∀ n, 1 ≤ n → t.nthDerivative v n = .ok (num (Scalar.ofNat 0)) ∧
        t.nthDerivative? v n = some (num (Scalar.ofNat 0)) := by
  obtain rfl := toTree_of_toExpr h
  rw [leafNames_toTree] at hv
  have hzero := normalForm_derivative_of_not_mem hv
  refine ⟨hzero, ⟨_, derivative?_toTree v e, hzero⟩, fun n hn => ?_⟩
  obtain ⟨n, rfl⟩ := Nat.exists_eq_add_of_le' hn
  exact ⟨nthDerivative_succ_of_not_mem hv n, nthDerivative?_succ_of_not_mem hv n⟩

/-- `y ^ (1 / 0) * ln(0 / 0)` over doubles: the exponent is infinite and the logarithm that of no
number. -/
theorem nthDerivative_of_not_mem_infinite :
    ∃ e : Expr Float,
      (node (.nary .mul) [node (.nary .pow) [var "y", node (.nary .div) [num 1, num 0]],
        node (.func .ln) [node (.nary .div) [num 0, num 0]]] : Tree Float).toExpr = .ok e ∧
      (1 / 0 : Float).isInf = true ∧ (0 / 0 : Float).isNaN = true ∧
      e.simplifiedDerivative "x" = num (Scalar.ofNat 0) ∧
      (node (.nary .mul) [node (.nary .pow) [var "y", node (.nary .div) [num 1, num 0]],
        node (.func .ln) [node (.nary .div) [num 0, num 0]]] : Tree Float).nthDerivative "x" 2 =
          .ok (num (Scalar.ofNat 0)) := by
  have hread : (node (.nary .mul) [node (.nary .pow) [var "y", node (.nary .div) [num 1, num 0]],
      node (.func .ln) [node (.nary .div) [num 0, num 0]]] : Tree Float).toExpr =
      .ok (.nary .mul (.nary .pow (.var "y") [.nary .div (.num 1) [.num 0]])
        [.func .ln (.nary .div (.num 0) [.num 0])]) := by
    simp [toExpr, ofNode, pure, Except.pure, bind, Except.bind]
  have hnames : "x" ∉ (node (.nary .mul)
      [node (.nary .pow) [var "y", node (.nary .div) [num 1, num 0]],
      node (.func .ln) [node (.nary .div) [num 0, num 0]]] : Tree Float).leafNames := by
    simp [leafNames]
  obtain ⟨hderivative, -, hall⟩ := nthDerivative_of_not_mem hread hnames
  exact ⟨_, hread, by decide +kernel, by decide +kernel, hderivative, (hall 2 (by decide)).1⟩

end Tree

end Fluxion

import Fluxion.Proofs.Expr.Unchecked
import Fluxion.Proofs.Simplify.Idempotence
import Mathlib.Data.Prod.Lex

/-!
# Simplification ends

A tree that is rewritten may get more nodes and more operands: `x + x + y` becomes `x * 2 + y`, and
flattening adds operands. What every rule makes less is the number of variables, or at the same
number the leaves and twice the operators (`Tree.extent`). This holds of any tree, whatever the
number of operands of an operator, and of any constants.

`Rule.untilSame` is the loop that does a rule until the tree is the same as before, with a bound on
the number of times. A pass that makes a tree lighter does not leave it the same, and one in which
no rule fires does, since every constant is the same as itself, one that is not a number too. So the
loop stops exactly when no rule fires, and before the bound if that is at least the weight of the
tree (`Tree.simplify_terminates`).
-/

namespace Fluxion

variable {α : Type}

/-! ## What gets less -/

namespace Tree

/-- The number of variables and the bulk, of which the first is compared first. -/
def extent (t : Tree α) : ℕ ×ₗ ℕ := toLex (t.variableCount, t.bulk)

/-- What is lighter comes before in the order of variables first, then size. -/
theorem Lighter.extent_lt {t' t : Tree α} (h : Lighter t' t) : t'.extent < t.extent := by
  obtain ⟨hvariables, hweight⟩ := h
  rw [extent, extent, Prod.Lex.toLex_lt_toLex]
  rcases hvariables.lt_or_eq with hless | hsame
  · exact Or.inl hless
  · rw [weight, weight, hsame] at hweight
    exact Or.inr ⟨hsame, by omega⟩

theorem weight_le_of_mem {t : Tree α} {ts : List (Tree α)} (h : t ∈ ts) :
    t.weight ≤ totalWeight ts := by
  have hsublist := totalWeight_sublist (List.singleton_sublist.2 h)
  have hpos := List.length_pos_of_mem h
  simp only [totalWeight_cons, totalWeight_nil, List.length_singleton] at hsublist
  omega

end Tree

/-! ## The loop -/

variable [Scalar α]

/-- A rule done over and over, at most `n` times, until the tree is the same as before. -/
def Rule.untilSame (r : Rule α) : Nat → Tree α → Option (Rewrite α)
  | 0, _ => none
  | n + 1, t =>
    let w := (r t).getD ⟨t, []⟩
    if w.result.same t then some w
    else (untilSame r n w.result).map fun last => ⟨last.result, w.steps ++ last.steps⟩

/-- The pass repeated at the root at most `n` times, if that is an arithmetic operator. -/
def Simplify.rootWithin (n : Nat) (t : Tree α) : Option (Rewrite α) :=
  match t with
  | .node op ts =>
    if op.isArithmetic then Rule.untilSame pass n (.node op ts) else some ⟨.node op ts, []⟩
  | leaf => some ⟨leaf, []⟩

/-- Simplification with at most `n` passes at each node. -/
def Tree.simplifyWithin (n : Nat) : Tree α → Option (Rewrite α)
  | node op ts => do
    let operands ← ts.mapM (simplifyWithin n)
    let last ← Simplify.rootWithin n (node op (operands.map Rewrite.result))
    return ⟨last.result, (operands.map Rewrite.steps).flatten ++ last.steps⟩
  | leaf => some ⟨leaf, []⟩

variable [LawfulScalar α] {t : Tree α} {n : Nat}

namespace Rule

variable {r : Rule α}

/-- The loop stops after a time at which the rule does not apply. -/
theorem untilSame_of_eq_none (hr : r t = none) (n : Nat) :
    untilSame r (n + 1) t = some ⟨t, []⟩ := by
  simp only [untilSame, hr, Option.getD_none, t.same_refl, if_true]

/-- Every time but the last makes the tree lighter, so that its weight is a bound. -/
theorem untilSame_of_weight_le (h : Shrinks r) (hn : t.weight ≤ n) :
    untilSame r n t = some (exhaust r h t) := by
  induction n generalizing t with
  | zero => exact absurd (t.one_le_weight.trans hn) (Nat.not_succ_le_zero 0)
  | succ n ih =>
    cases hr : r t with
    | none => rw [untilSame_of_eq_none hr, exhaust_of_eq_none hr]
    | some w =>
      -- the loop goes on, with one time less to go and a tree that weighs less
      have hlighter : Tree.Lighter w.result t := h hr
      have hless := hlighter.2
      simp only [untilSame, hr, Option.getD_some, Tree.not_same_of_lighter hlighter]
      rw [ih (by omega), exhaust_of_eq_some hr]
      rfl

end Rule

/-- As many passes as the tree weighs are enough. -/
theorem Simplify.rootWithin_of_weight_le (hn : t.weight ≤ n) :
    rootWithin n t = some (root t) := by
  cases t with
  | num a => rfl
  | var x => rfl
  | node op ts =>
    rw [rootWithin, root]
    split
    · exact Rule.untilSame_of_weight_le pass_shrinks hn
    · rfl

namespace Tree

open Simplify

/-- Simplified operands are no heavier, so that one bound does for all nodes. -/
theorem simplifyWithin_of_weight_le (hn : t.weight ≤ n) :
    t.simplifyWithin n = some t.simplifySteps := by
  induction t using operands_induction with
  | num a => rw [simplifyWithin, simplifySteps] <;> simp
  | var x => rw [simplifyWithin, simplifySteps] <;> simp
  | node op ts ih =>
    rw [weight_node] at hn
    have hoperands : ts.mapM (simplifyWithin n) = some (ts.map simplifySteps) := by
      have hall : ∀ u ∈ ts, u.simplifyWithin n = some u.simplifySteps := by
        intro u hu
        have hle := weight_le_of_mem hu
        exact ih u hu (by omega)
      have hmapM := Expr.mapM_map_eq_some (g := id) hall
      rwa [List.map_id] at hmapM
    -- the operands have not become heavier, so the same bound does for the root
    have hlight : totalWeight ((ts.map simplifySteps).map Rewrite.result) ≤ totalWeight ts := by
      rcases totalWeight_rewritten fun u (_ : u ∈ ts) => u.simplifySteps_honest with h | h
      · rw [h.2]
      · exact h.2.le
    have hroot := rootWithin_of_weight_le (n := n)
      (t := node op ((ts.map simplifySteps).map Rewrite.result)) (by rw [weight_node]; omega)
    rw [simplifyWithin, hoperands, simplifySteps]
    simp only [Option.bind_eq_bind, Option.bind_some, hroot]
    rfl

/-- Over doubles, every rule that fires lessens the tree it rewrites, and so does every pass. A pass
in which none fires ends the loop, since a tree is the same as itself whatever its constants are.
For every tree the loops end with its simplification, at every node within as many passes as the
tree weighs. -/
theorem simplify_terminates (t : Tree Float) :
    (∀ f ∈ rewrites (α := Float), ∀ s s' : Tree Float, f s = some s' → s'.extent < s.extent) ∧
      (∀ (s : Tree Float) (w : Rewrite Float), pass s = some w → w.result.extent < s.extent) ∧
      (∀ s : Tree Float, s.same s = true) ∧
      (∀ (s : Tree Float) (n : Nat), pass s = none →
        pass.untilSame (n + 1) s = some ⟨s, []⟩) ∧
      ∀ n, t.weight ≤ n → t.simplifyWithin n = some t.simplifySteps := by
  refine ⟨?_, ?_, same_refl, ?_, ?_⟩
  · intro f hf s s' h
    exact (lighter_of_rewrite hf h).extent_lt
  · intro s w hw
    exact (pass_shrinks hw).extent_lt
  · intro s n hpass
    exact Rule.untilSame_of_eq_none hpass n
  · intro n hn
    exact simplifyWithin_of_weight_le hn

/-- A sum of a power and a logarithm without operands, of no number, of a negative zero, and of a
variable twice. -/
def malformed : Tree Float :=
  node (.nary .add)
    [node (.nary .pow) [], node (.func .ln) [], num (0.0 / 0.0), num (-0.0), var "x", var "x"]

/-- Four passes at a node for each variable and a few more are enough. -/
theorem simplify_terminates_malformed :
    malformed.weight ≤ 16 ∧ malformed.simplifyWithin 16 = some malformed.simplifySteps := by
  have hweight : malformed.weight ≤ 16 := by simp [malformed]
  obtain ⟨-, -, -, -, hend⟩ := simplify_terminates malformed
  exact ⟨hweight, hend 16 hweight⟩

end Tree

end Fluxion

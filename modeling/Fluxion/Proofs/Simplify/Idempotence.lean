import Fluxion.Proofs.Simplify.Settled

/-!
# Steps and changes

Simplifying a simplified tree does nothing, and a simplification records a step exactly if it
changes the tree (`Tree.simplify_idempotent`). Trees that are the same weigh the same, zeros of
either sign being the same and so being whatever is not a number. Every rule makes a tree lighter,
so none can leave it the same, nor can a pass.

This is what lets the pass be repeated until the tree is the same as before, with no account of
whether a rule applied: `Rule.Loop` is that loop, and it yields what `Simplify.root` does.
-/

namespace Fluxion

variable {α : Type} [Scalar α]

/-! ## Trees that are the same -/

namespace Tree

theorem sameAll_iff {ts us : List (Tree α)} :
    sameAll ts us = true ↔ List.Forall₂ (fun t u => t.same u = true) ts us := by
  induction ts generalizing us with
  | nil => cases us <;> simp [sameAll]
  | cons t ts ih => cases us <;> simp [sameAll, ih]

/-- Operands that are the same weigh the same together. -/
theorem totalWeight_of_sameAll {ts us : List (Tree α)}
    (h : ∀ t ∈ ts, ∀ u, t.same u = true → t.weight = u.weight) (hsame : sameAll ts us = true) :
    totalWeight ts = totalWeight us := by
  have hforall := sameAll_iff.1 hsame
  clear hsame
  induction hforall with
  | nil => rfl
  | cons htu _ ih =>
    obtain ⟨ht, hts⟩ := List.forall_mem_cons.1 h
    rw [totalWeight_cons, totalWeight_cons, ht _ htu, ih hts]

/-- Trees that are the same weigh the same, though their constants may differ in the sign of zero.
-/
theorem weight_of_same {t u : Tree α} (h : t.same u = true) : t.weight = u.weight := by
  induction t using operands_induction generalizing u with
  | num a =>
    cases u with
    | num b => rw [weight_num, weight_num]
    | var x | node op us => simp [same] at h
  | var x =>
    cases u with
    | var y => rw [weight_var, weight_var]
    | num b | node op us => simp [same] at h
  | node op ts ih =>
    cases u with
    | num b | var y => simp [same] at h
    | node op' us =>
      rw [same, Bool.and_eq_true] at h
      rw [weight_node, weight_node, totalWeight_of_sameAll (fun t ht u htu => ih t ht htu) h.2]

/-- Every tree is the same as itself, constants that are no numbers included. -/
theorem same_refl [LawfulScalar α] (t : Tree α) : t.same t = true := by
  induction t using operands_induction with
  | num a => rw [same]; exact LawfulScalar.same_refl a
  | var x => rw [same]; exact beq_self_eq_true x
  | node op ts ih =>
    rw [same, Bool.and_eq_true, sameAll_iff]
    exact ⟨beq_self_eq_true op, List.forall₂_same.2 ih⟩

/-- A lighter tree is not the same. -/
theorem not_same_of_lighter {t u : Tree α} (h : Lighter t u) : t.same u = false := by
  refine Bool.eq_false_iff.2 fun hsame => ?_
  exact absurd (weight_of_same hsame) (Nat.ne_of_lt h.2)

end Tree

/-! ## Steps that are recorded -/

omit [Scalar α] in
/-- A rule that applies leaves a record of what it did. -/
def Rule.Records (r : Rule α) : Prop := Ensures (fun _ w => w.steps ≠ []) r

omit [Scalar α] in
theorem Rule.Records.named (step : Step) (f : Tree α → Option (Tree α)) :
    Records (Rule.named step f) :=
  Ensures.named fun _ _ _ => List.cons_ne_nil _ _

namespace Simplify

theorem pass_records : Rule.Records (pass : Rule α) :=
  pass_ensures (fun _ _ _ h _ => List.append_ne_nil_of_left_ne_nil h _)
    fun f _ step => Rule.Records.named step f

/-- No rule fires without changing the tree. -/
theorem not_same_of_rewrite {f : Tree α → Option (Tree α)} (hf : f ∈ rewrites) {t t' : Tree α}
    (h : f t = some t') : t'.same t = false :=
  Tree.not_same_of_lighter (lighter_of_rewrite hf h)

end Simplify

/-- Nothing was done and nothing recorded, or there is a record and the tree is lighter. -/
def Rewrite.Honest (t : Tree α) (w : Rewrite α) : Prop :=
  w.steps = [] ∧ w.result = t ∨ w.steps ≠ [] ∧ w.result.weight < t.weight

omit [Scalar α] in
theorem Rewrite.Honest.weight_le {t : Tree α} {w : Rewrite α} (h : w.Honest t) :
    w.result.weight ≤ t.weight := by
  rcases h with ⟨-, h⟩ | ⟨-, h⟩
  · rw [h]
  · exact h.le

/-- No step is recorded exactly if the tree is the same. -/
theorem Rewrite.Honest.steps_eq_nil_iff [LawfulScalar α] {t : Tree α} {w : Rewrite α}
    (h : w.Honest t) : w.steps = [] ↔ w.result.same t = true := by
  rcases h with ⟨hnil, hresult⟩ | ⟨hsteps, hless⟩
  · rw [hresult]
    exact ⟨fun _ => t.same_refl, fun _ => hnil⟩
  · exact ⟨fun hnil => absurd hnil hsteps,
      fun hsame => absurd (Tree.weight_of_same hsame) hless.ne⟩

omit [Scalar α] in
/-- Honest rewrites one after another are honest together. -/
theorem Rewrite.Honest.composes : Rule.Composes fun (t : Tree α) w => w.Honest t := by
  intro t w w' h h'
  rcases h with ⟨hnil, hresult⟩ | ⟨hsteps, hless⟩
  · rw [hnil, List.nil_append]
    rw [hresult] at h'
    exact h'
  · exact Or.inr ⟨List.append_ne_nil_of_left_ne_nil hsteps _, lt_of_le_of_lt h'.weight_le hless⟩

/-- Simplifying at the root is honest, since every rule is. -/
theorem Simplify.root_honest (t : Tree α) : (root t).Honest t :=
  root_ensures Rewrite.Honest.composes (fun _ => Or.inl ⟨rfl, rfl⟩)
    (fun _ hf _ => .named fun _ _ h => Or.inr ⟨List.cons_ne_nil _ _, (lighter_of_rewrite hf h).2⟩) t

namespace Tree

open Simplify

omit [Scalar α] in
/-- Of operands rewritten honestly, either nothing is recorded and all are as they were, or
something is and they weigh less. -/
theorem totalWeight_rewritten {f : Tree α → Rewrite α} {ts : List (Tree α)}
    (h : ∀ t ∈ ts, (f t).Honest t) :
    ((ts.map f).map Rewrite.steps).flatten = [] ∧ (ts.map f).map Rewrite.result = ts ∨
      ((ts.map f).map Rewrite.steps).flatten ≠ [] ∧
        totalWeight ((ts.map f).map Rewrite.result) < totalWeight ts := by
  induction ts with
  | nil => exact Or.inl ⟨rfl, rfl⟩
  | cons t ts ih =>
    obtain ⟨ht, hts⟩ := List.forall_mem_cons.1 h
    have htle := ht.weight_le
    simp only [List.map_cons, List.flatten_cons, totalWeight_cons, List.cons.injEq, ne_eq,
      List.append_eq_nil_iff]
    rcases ht with ⟨hnil, hresult⟩ | ⟨hsteps, hless⟩ <;>
      rcases ih hts with ⟨hnils, hresults⟩ | ⟨hstepss, hlesss⟩
    · exact Or.inl ⟨⟨hnil, hnils⟩, hresult, hresults⟩
    · exact Or.inr ⟨fun h => hstepss h.2, by omega⟩
    · rw [hresults]
      exact Or.inr ⟨fun h => hsteps h.1, by omega⟩
    · exact Or.inr ⟨fun h => hsteps h.1, by omega⟩

/-- By recursion over the tree: the steps of the operands, and those at the root. -/
theorem simplifySteps_honest (t : Tree α) : t.simplifySteps.Honest t := by
  induction t using operands_induction with
  | num a => simp [simplifySteps, Rewrite.Honest]
  | var x => simp [simplifySteps, Rewrite.Honest]
  | node op ts ih =>
    rw [simplifySteps]
    have hroot := root_honest (node op ((ts.map simplifySteps).map Rewrite.result))
    have hrootle := hroot.weight_le
    simp only [Rewrite.Honest, List.append_eq_nil_iff, ne_eq, weight_node] at hroot hrootle ⊢
    rcases totalWeight_rewritten ih with ⟨hnils, hresults⟩ | ⟨hstepss, hlesss⟩
    · rw [hresults] at hroot hrootle ⊢
      rcases hroot with ⟨hnil, hresult⟩ | ⟨hsteps, hless⟩
      · exact Or.inl ⟨⟨hnils, hnil⟩, hresult⟩
      · exact Or.inr ⟨fun h => hsteps h.2, hless⟩
    · exact Or.inr ⟨fun h => hstepss h.1, by omega⟩

/-- Simplifying once more leaves the tree as it is and records no step; a simplification records no
step exactly if the tree it leaves is the same; and no pass and no rule that applies leaves the same
tree, nor does a pass that applies leave no record. -/
theorem simplify_idempotent [LawfulScalar α] (t : Tree α) :
    t.simplify.simplifySteps = ⟨t.simplify, []⟩ ∧
      (t.simplifySteps.steps = [] ↔ t.simplifySteps.result.same t = true) ∧
      (∀ (s : Tree α) (w : Rewrite α), pass s = some w →
        w.steps ≠ [] ∧ w.result.same s = false) ∧
      ∀ f ∈ rewrites (α := α), ∀ s s' : Tree α, f s = some s' → s'.same s = false := by
  refine ⟨t.simplify_settled.simplifySteps_eq, t.simplifySteps_honest.steps_eq_nil_iff, ?_, ?_⟩
  · intro s w hw
    exact ⟨pass_records hw, not_same_of_lighter (pass_shrinks hw)⟩
  · intro f hf s s' h
    exact not_same_of_rewrite hf h

/-- `x * x` over doubles. -/
theorem simplify_idempotent_square :
    (node (.nary .mul) [var "x", var "x"] : Tree Float).simplify.simplifySteps =
        ⟨(node (.nary .mul) [var "x", var "x"] : Tree Float).simplify, []⟩ ∧
      ((node (.nary .mul) [var "x", var "x"] : Tree Float).simplifySteps.steps = [] ↔
        (node (.nary .mul) [var "x", var "x"] : Tree Float).simplifySteps.result.same
          (node (.nary .mul) [var "x", var "x"]) = true) := by
  obtain ⟨hagain, hsteps, -⟩ :=
    simplify_idempotent (node (.nary .mul) [var "x", var "x"] : Tree Float)
  exact ⟨hagain, hsteps⟩

end Tree

/-! ## The loop -/

/-- What is done with the root over and over until it is the same as before: the rule if it applies,
and else nothing. -/
inductive Rule.Loop (r : Rule α) : Tree α → Rewrite α → Prop
  | last {t : Tree α} {w : Rewrite α} : (r t).getD ⟨t, []⟩ = w → w.result.same t = true → Loop r t w
  | again {t : Tree α} {w w' : Rewrite α} : (r t).getD ⟨t, []⟩ = w → w.result.same t = false →
      Loop r w.result w' → Loop r t ⟨w'.result, w.steps ++ w'.steps⟩

/-- The loop ends with what comes of doing the rule until it does not apply. -/
theorem Rule.loop_iff [LawfulScalar α] {r : Rule α} {h : Shrinks r} {t : Tree α} {w : Rewrite α} :
    Loop r t w ↔ w = exhaust r h t := by
  constructor
  · intro hloop
    induction hloop with
    | @last t w hw hsame =>
      cases hr : r t with
      | none =>
        rw [hr, Option.getD_none] at hw
        rw [exhaust_of_eq_none hr, hw]
      | some w₁ =>
        rw [hr, Option.getD_some] at hw
        subst hw
        rw [Tree.not_same_of_lighter (h hr)] at hsame
        cases hsame
    | @again t w w' hw hsame _ ih =>
      cases hr : r t with
      | none =>
        rw [hr, Option.getD_none] at hw
        subst hw
        rw [Tree.same_refl] at hsame
        cases hsame
      | some w₁ =>
        rw [hr, Option.getD_some] at hw
        subst hw
        rw [exhaust_of_eq_some hr, ih]
  -- a rewrite that is not the last makes the tree lighter, so the comparison tells it apart
  · rintro rfl
    fun_induction exhaust r h t with
    | case1 t hnone =>
      refine .last ?_ t.same_refl
      rw [hnone, Option.getD_none]
    | case2 t w hw last ih =>
      refine .again ?_ (Tree.not_same_of_lighter (h hw)) ih
      rw [hw, Option.getD_some]

end Fluxion

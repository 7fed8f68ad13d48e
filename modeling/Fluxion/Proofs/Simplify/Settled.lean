import Fluxion.Proofs.Scalar.Doubles
import Fluxion.Proofs.Simplify.Value

/-!
# Nothing is left to do

No rule applies to any subtree of a simplified tree (`Tree.simplify_settled`). At the root that is
so because rules are repeated until none applies. Below the root it is so because operands are
simplified first, and a rule makes no operands but such, their operands and a few of its own, to
which no rule applies either.

It follows that simplifying once more does nothing, and without a step. A rule that applies always
changes the tree: what it leaves is lighter, and trees that are the same weigh the same.
-/

namespace Fluxion

variable {α : Type} [Scalar α]

/-! ## What a pass that does nothing says of the rules -/

omit [Scalar α] in
/-- After the last round the rule does not apply. -/
theorem Rule.exhaust_result {r : Rule α} {h : Shrinks r} (t : Tree α) :
    r (exhaust r h t).result = none := by
  fun_induction exhaust r h t with
  | case1 t hnone => exact hnone
  | case2 t w hw last ih => exact ih

/-- No rule applies to the root. -/
def Tree.Settled (t : Tree α) : Prop := Simplify.pass t = none

namespace Simplify

/-- A pass does nothing exactly if none of the single rules applies. -/
theorem settled_iff {t : Tree α} : t.Settled ↔ ∀ f ∈ rewrites, f t = none := by
  simp only [Tree.Settled, pass, identities, shortCircuits, collections, Rule.inTurn_eq_none,
    Rule.first_eq_none, List.forall_mem_cons, Rule.named_eq_none, rewrites, and_assoc,
    List.not_mem_nil, false_imp_iff, implies_true, and_true]

/-- Only evaluation applies to anything but arithmetic on a list of operands. -/
theorem rewrite_eq_none {t : Tree α} (ht : ∀ op ts, t ≠ .node (.nary op) ts) :
    ∀ f ∈ rewrites, f t = none ∨ f = evaluate := by
  intro f hf
  simp only [rewrites, List.mem_cons, List.not_mem_nil, or_false] at hf
  rcases t with a | x | ⟨_ | _, ts⟩
  case node.nary op => exact absurd rfl (ht op ts)
  all_goals
    rcases hf with rfl | rfl | rfl | rfl | rfl | rfl | rfl | rfl | rfl | rfl | rfl | rfl <;>
      first
        | exact Or.inl rfl
        | exact Or.inr rfl

/-- A function, a statement or a leaf stays what it is at the root, unless it is evaluated. -/
theorem root_of_not_nary {t : Tree α} (ht : ∀ op ts, t ≠ .node (.nary op) ts) :
    (root t).result = t ∨ ∃ a, (root t).result = .num a := by
  have hrewrites : ∀ f ∈ rewrites (α := α),
      Respects (fun t t' => (∀ op ts, t ≠ .node (.nary op) ts) → t' = t ∨ ∃ a, t' = .num a) f := by
    intro f hf t t' h ht
    rcases rewrite_eq_none ht f hf with hnone | rfl
    · rw [hnone] at h
      cases h
    · obtain ⟨op, ts, e, a, -, -, -, -, rfl⟩ := evaluate_eq_some h
      exact Or.inr ⟨a, rfl⟩
  refine root_respects (fun t _ => Or.inl rfl) (fun s t u hst htu hs => ?_) hrewrites t ht
  rcases hst hs with rfl | ⟨a, rfl⟩
  · exact htu hs
  · rcases htu (fun _ _ h => by cases h) with rfl | ha
    · exact Or.inr ⟨a, rfl⟩
    · exact Or.inr ha

/-! ## Settled trees -/

theorem settled_num (a : α) : (Tree.num a).Settled := rfl

theorem settled_var (x : String) : (Tree.var x : Tree α).Settled := rfl

theorem settled_of_not_isArithmetic {op : Operator} (h : op.isArithmetic = false)
    (ts : List (Tree α)) : (Tree.node op ts).Settled := by
  have hnary : ∀ op' us, Tree.node op ts ≠ .node (.nary op') us := by
    rintro op' us ⟨⟩
    cases h
  refine settled_iff.2 fun f hf => ?_
  rcases rewrite_eq_none hnary f hf with hnone | rfl
  · exact hnone
  · exact if_neg (by rw [h]; exact Bool.false_ne_true)

/-- The rules are applied until none does any more. -/
theorem root_settled (t : Tree α) : (root t).result.Settled := by
  rcases t with a | x | ⟨op, ts⟩
  · exact settled_num a
  · exact settled_var x
  · cases harithmetic : op.isArithmetic with
    | true =>
      rw [root_of_isArithmetic harithmetic]
      exact Rule.exhaust_result _
    | false =>
      have hroot : root (.node op ts) = ⟨.node op ts, []⟩ :=
        if_neg (by rw [harithmetic]; exact Bool.false_ne_true)
      rw [hroot]
      exact settled_of_not_isArithmetic harithmetic ts

/-- Where no rule applies nothing changes and no step is recorded. -/
theorem root_of_settled {t : Tree α} (h : t.Settled) : root t = ⟨t, []⟩ := by
  unfold root
  split
  · split
    · exact Rule.exhaust_of_eq_none h
    · rfl
  · rfl

/-- What a pass leaves is the result if no rule applies to it. -/
theorem root_of_pass_left {op : Operator} {ts : List (Tree α)} {t : Tree α}
    (hop : op.isArithmetic = true) (hleft : pass.left (.node op ts) = t) (ht : t.Settled) :
    (root (.node op ts)).result = t := by
  rw [root_of_isArithmetic hop]
  cases hpass : pass (.node op ts) with
  | none =>
    rw [Rule.exhaust_of_eq_none hpass]
    rwa [Rule.left_of_eq_none hpass] at hleft
  | some w =>
    rw [Rule.left_of_eq_some hpass] at hleft
    rw [Rule.exhaust_of_eq_some hpass, hleft, Rule.exhaust_of_eq_none ht]

variable [LawfulScalar α]

/-- To what the rules put in no rule applies. -/
theorem hereditary_settled : Hereditary (Tree.Each (Tree.Settled (α := α))) where
  num a := Tree.each_num.2 (settled_num a)
  operand h := (Tree.each_node.1 h).1
  term {_ c} hx hzero hone := Tree.each_node.2
    ⟨List.forall_mem_cons.2 ⟨hx, List.forall_mem_singleton.2 (Tree.each_num.2 (settled_num c))⟩,
      (turns_term ⟨hzero, hone⟩).pass_eq_none⟩
  power n hx := Tree.each_node.2
    ⟨List.forall_mem_cons.2 ⟨hx, List.forall_mem_singleton.2 (Tree.each_num.2 (settled_num _))⟩,
      (turns_power (ordinary_ofNat n)).pass_eq_none⟩

end Simplify

namespace Tree

open Simplify

/-- Of what is not arithmetic the operands are simplified and nothing else. -/
theorem simplify_of_not_isArithmetic {op : Operator} (h : op.isArithmetic = false)
    (ts : List (Tree α)) : (node op ts).simplify = node op (ts.map simplify) := by
  rw [simplify_node, root_of_settled (settled_of_not_isArithmetic h _)]

/-- If the operands are settled throughout, so is what becomes of the whole. -/
theorem each_settled_root [LawfulScalar α] {op : Operator} {ts : List (Tree α)}
    (hts : ∀ t ∈ ts, t.Each Settled) : (root (node op ts)).result.Each Settled := by
  by_cases hnary : ∃ op', op = .nary op'
  · obtain ⟨op', rfl⟩ := hnary
    exact (hereditary_settled.root (Or.inr ⟨op', ts, rfl, hts⟩)).each (root_settled _)
  · have hother : ∀ op' us, node op ts ≠ node (.nary op') us := by
      intro op' us heq
      exact hnary ⟨op', (node.inj heq).1⟩
    have hsettled := root_settled (node op ts)
    rcases root_of_not_nary hother with h | ⟨a, h⟩
    · rw [h] at hsettled ⊢
      exact each_node.2 ⟨hts, hsettled⟩
    · rw [h]
      exact each_num.2 (settled_num a)

/-- No rule applies to any subtree of a simplified tree. -/
theorem simplify_settled [LawfulScalar α] (t : Tree α) : t.simplify.Each Settled := by
  induction t using operands_induction with
  | num a => rw [simplify_num]; exact each_num.2 (settled_num a)
  | var x => rw [simplify_var]; exact each_var.2 (settled_var x)
  | node op ts ih =>
    rw [simplify_node]
    refine each_settled_root fun u hu => ?_
    obtain ⟨t, ht, rfl⟩ := List.mem_map.1 hu
    exact ih t ht

/-- A tree to which no rule applies anywhere is left as it is, without a step. -/
theorem Each.simplifySteps_eq {t : Tree α} (h : t.Each Settled) : t.simplifySteps = ⟨t, []⟩ := by
  induction t using operands_induction with
  | num a => rw [simplifySteps]; exact fun _ _ h => by cases h
  | var x => rw [simplifySteps]; exact fun _ _ h => by cases h
  | node op ts ih =>
    obtain ⟨hts, hself⟩ := each_node.1 h
    have hmap : ts.map simplifySteps = ts.map fun t => ⟨t, []⟩ :=
      List.map_congr_left fun t ht => ih t ht (hts t ht)
    have hresults : (ts.map simplifySteps).map Rewrite.result = ts := by
      rw [hmap, List.map_map]
      exact List.map_id _
    -- no operand has recorded a step
    have hsteps : ((ts.map simplifySteps).map Rewrite.steps).flatten = [] := by
      rw [hmap, List.map_map, List.flatten_eq_nil_iff]
      intro steps hmem
      obtain ⟨t, -, rfl⟩ := List.mem_map.1 hmem
      rfl
    rw [simplifySteps]
    simp only [hresults, hsteps, root_of_settled hself]
    rfl

/-- A tree to whose subtrees no rule applies is left as it is. -/
theorem Each.simplify_eq {t : Tree α} (h : t.Each Settled) : t.simplify = t := by
  rw [simplify, h.simplifySteps_eq]

end Tree

end Fluxion

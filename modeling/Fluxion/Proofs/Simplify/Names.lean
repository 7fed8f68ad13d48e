import Fluxion.Proofs.Simplify.Settled

/-!
# Variables of normal forms

No rule brings in a variable, so the variables of a simplified tree all occur in the tree
(`Tree.leafNames_simplify_subset`).
-/

namespace Fluxion

variable {α : Type} [Scalar α]

namespace Tree

omit [Scalar α] in
theorem mem_leafNames_node {x : String} {op : Operator} {ts : List (Tree α)} :
    x ∈ (node op ts).leafNames ↔ ∃ t ∈ ts, x ∈ t.leafNames := by
  rw [leafNames, ← List.flatMap_def, List.mem_flatMap]

end Tree

namespace Simplify

open Fluxion.Tree

variable {v : String}

/-- No rule brings in a variable. -/
theorem hereditary_not_mem : Hereditary fun t : Tree α => v ∉ t.leafNames where
  num a h := by rw [leafNames] at h; cases h
  operand h t ht hmem := h (mem_leafNames_node.2 ⟨t, ht, hmem⟩)
  term hx _ _ h := by
    obtain ⟨t, ht, hmem⟩ := mem_leafNames_node.1 h
    rcases List.mem_cons.1 ht with rfl | ht
    · exact hx hmem
    · rw [List.mem_singleton.1 ht, leafNames] at hmem
      cases hmem
  power _ hx h := by
    obtain ⟨t, ht, hmem⟩ := mem_leafNames_node.1 h
    rcases List.mem_cons.1 ht with rfl | ht
    · exact hx hmem
    · rw [List.mem_singleton.1 ht, leafNames] at hmem
      cases hmem

/-- No rule brings in a variable. -/
theorem not_mem_of_rewrite {f : Tree α → Option (Tree α)} (hf : f ∈ rewrites) {t t' : Tree α}
    (h : f t = some t') (ht : v ∉ t.leafNames) : v ∉ t'.leafNames := by
  rcases hereditary_not_mem.rewrites f hf t t' h (Or.inl ht) with h | ⟨op, ts, rfl, hts⟩
  · exact h
  · intro hmem
    obtain ⟨u, hu, hmem⟩ := mem_leafNames_node.1 hmem
    exact hts u hu hmem

/-- Nor do the rules together, however often they are applied. -/
theorem not_mem_root {t : Tree α} (h : v ∉ t.leafNames) : v ∉ (root t).result.leafNames :=
  root_respects (R := fun t t' => v ∉ t.leafNames → v ∉ t'.leafNames) (fun _ h => h)
    (fun _ _ _ hst htu hs => htu (hst hs)) (fun _ hf _ _ h => not_mem_of_rewrite hf h) t h

end Simplify

/-- Simplification brings in no variable. -/
theorem Tree.leafNames_simplify_subset (t : Tree α) : t.simplify.leafNames ⊆ t.leafNames := by
  induction t using operands_induction with
  | num a => rw [simplify_num]; exact List.Subset.refl _
  | var x => rw [simplify_var]; exact List.Subset.refl _
  | node op ts ih =>
    intro x hx
    by_contra hnot
    refine Simplify.not_mem_root (fun hmem => hnot ?_) (simplify_node op ts ▸ hx)
    obtain ⟨s, hs, hxs⟩ := mem_leafNames_node.1 hmem
    obtain ⟨t, ht, rfl⟩ := List.mem_map.1 hs
    exact mem_leafNames_node.2 ⟨t, ht, ih t ht hxs⟩

end Fluxion

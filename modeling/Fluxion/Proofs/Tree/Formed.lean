import Fluxion.Proofs.Simplify.Subtrees
import Fluxion.Proofs.Tree.Shape

/-!
# Assignments and powers as they are read

In a tree of a text the first operand of an assignment is a variable, and a power has two operands.
Simplification takes the latter away, but not the former.
-/

namespace Fluxion

variable {α : Type} {finite : α → Prop} {t : Tree α}

namespace Tree

/-- If the root is an assignment it is one to a variable, and if it is a power it has a base and one
exponent. -/
structure Formed (t : Tree α) : Prop where
  assign : ∀ ts, t = node .assign ts → ∃ x us, ts = var x :: us
  pow : ∀ ts, t = node (.nary .pow) ts → ts.length = 2

theorem formed_num (a : α) : (num a).Each Formed :=
  each_num.2 ⟨fun _ h => (nomatch h), fun _ h => (nomatch h)⟩

theorem formed_var (x : String) : (var x : Tree α).Each Formed :=
  each_var.2 ⟨fun _ h => (nomatch h), fun _ h => (nomatch h)⟩

/-- Only assignments and powers are asked for their operands. -/
theorem formed_node {op : Operator} {ts : List (Tree α)} (hassign : op ≠ .assign)
    (hpow : op ≠ .nary .pow) (hts : ∀ t ∈ ts, t.Each Formed) : (node op ts).Each Formed :=
  each_node.2 ⟨hts, fun _ h => absurd (node.inj h).1 hassign, fun _ h => absurd (node.inj h).1 hpow⟩

theorem formed_sequence {ts : List (Tree α)} (hts : ∀ t ∈ ts, t.Each Formed) :
    (node .sequence ts).Each Formed :=
  formed_node (by decide) (by decide) hts

end Tree

open Fluxion.Tree

/-- In expressions assignments and powers have the operands they should. -/
theorem Shape.Expression.formed (h : Shape.Expression finite t) : t.Each Formed := by
  induction h with
  | num _ => exact formed_num _
  | var _ => exact formed_var _
  | nary hop _ _ ih => exact formed_node (by simp) (fun h => hop (Operator.nary.inj h)) ih
  | @pow t t' _ _ ih ih' =>
    refine each_node.2 ⟨List.forall_mem_cons.2 ⟨ih, List.forall_mem_singleton.2 ih'⟩,
      fun _ h => (nomatch h), fun us h => ?_⟩
    rw [← (node.inj h).2]
    rfl
  | relation _ _ ih ih' =>
    exact formed_node (by simp) (by simp)
      (List.forall_mem_cons.2 ⟨ih, List.forall_mem_singleton.2 ih'⟩)
  | func _ ih => exact formed_node (by simp) (by simp) (List.forall_mem_singleton.2 ih)
  | @assign x t _ _ ih =>
    refine each_node.2 ⟨List.forall_mem_cons.2 ⟨formed_var _, List.forall_mem_singleton.2 ih⟩,
      fun us h => ?_, fun _ h => (nomatch h)⟩
    exact ⟨x, [t], (node.inj h).2.symm⟩
  | call _ _ _ ih => exact formed_node (by simp) (by simp) ih

/-- In statements assignments and powers have the operands they should. -/
theorem Shape.Statement.formed (h : Shape.Statement finite t) : t.Each Formed := by
  induction h with
  | expression h => exact h.formed
  | giveBack h => exact formed_node (by decide) (by decide) (List.forall_mem_singleton.2 h.formed)
  | ifThen hc _ ih | whileLoop hc _ ih =>
    exact formed_node (by decide) (by decide)
      (List.forall_mem_cons.2 ⟨hc.formed, List.forall_mem_singleton.2 (formed_sequence ih)⟩)
  | ifThenElse hc _ _ ih ih' =>
    exact formed_node (by decide) (by decide) (List.forall_mem_cons.2 ⟨hc.formed,
      List.forall_mem_cons.2 ⟨formed_sequence ih,
        List.forall_mem_singleton.2 (formed_sequence ih')⟩⟩)
  | forLoop hfirst hc hstep _ ih =>
    exact formed_node (by decide) (by decide) (List.forall_mem_cons.2 ⟨hfirst.formed,
      List.forall_mem_cons.2 ⟨hc.formed, List.forall_mem_cons.2 ⟨hstep.formed,
        List.forall_mem_singleton.2 (formed_sequence ih)⟩⟩⟩)

/-- In definitions assignments and powers have the operands they should. -/
theorem Shape.Definition.formed (h : Shape.Definition finite t) : t.Each Formed := by
  cases h with
  | mk _ _ hbody =>
    refine formed_node (by simp) (by simp) (List.forall_mem_append.2 ⟨?_,
      List.forall_mem_singleton.2 (formed_sequence fun t ht => (hbody t ht).formed)⟩)
    intro t ht
    obtain ⟨x, -, rfl⟩ := List.mem_map.1 ht
    exact formed_var x

/-- Whatever a text is read as, its assignments and powers have the operands they should. -/
theorem Entry.Shape.formed {entry : Entry} (h : entry.Shape finite t) : t.Each Formed := by
  cases entry with
  | expression => exact Shape.Expression.formed h
  | statements =>
    obtain ⟨ts, rfl, hts⟩ := h
    exact formed_sequence fun t ht => (hts t ht).formed
  | program =>
    obtain ⟨ts, rfl, hts⟩ := h
    exact formed_sequence fun t ht => (hts t ht).formed

end Fluxion

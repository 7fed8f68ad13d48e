import Fluxion.Expr.Validation
import Fluxion.Proofs.Expr.Values

/-!
# Expressions as trees

Reading a tree as an expression undoes `Expr.toTree`: a tree that stands for an expression is that
expression's tree, and the tree of an expression stands for it.
-/

namespace Fluxion

variable {α : Type}

/-- Induction on the operands. -/
@[elab_as_elim]
theorem Tree.operands_induction {motive : Tree α → Prop}
    (num : ∀ a, motive (num a)) (var : ∀ x, motive (var x))
    (node : ∀ op ts, (∀ t ∈ ts, motive t) → motive (node op ts)) : ∀ t, motive t
  | .num a => num a
  | .var x => var x
  | .node op ts => node op ts fun t _ => operands_induction num var node t

/-- If `f` undoes `g`, then on lists as well. -/
theorem mapM_map_eq_ok {β γ ε : Type} {f : β → Except ε γ} {g : γ → β} {cs : List γ}
    (h : ∀ c ∈ cs, f (g c) = .ok c) : (cs.map g).mapM f = .ok cs := by
  induction cs with
  | nil => rfl
  | cons c cs ih =>
    rw [List.map_cons, List.mapM_cons, h c (List.mem_cons_self ..),
      ih fun d hd => h d (List.mem_cons_of_mem _ hd)]
    rfl

/-- If `g` undoes `f` wherever that goes well, then on lists as well. -/
theorem map_of_mapM_eq_ok {β γ ε : Type} {f : β → Except ε γ} {g : γ → β} {bs : List β}
    {cs : List γ} (h : ∀ b ∈ bs, ∀ c, f b = .ok c → g c = b) (hok : bs.mapM f = .ok cs) :
    cs.map g = bs := by
  induction bs generalizing cs with
  | nil => cases hok; rfl
  | cons b bs ih =>
    rw [List.mapM_cons] at hok
    cases hb : f b with
    | error e => rw [hb] at hok; cases hok
    | ok c =>
      cases hbs : bs.mapM f with
      | error e => rw [hb, hbs] at hok; cases hok
      | ok ds =>
        rw [hb, hbs] at hok
        cases hok
        rw [List.map_cons, h b (List.mem_cons_self ..) c hb,
          ih (fun b hb => h b (List.mem_cons_of_mem _ hb)) hbs]

namespace Expr

/-- An expression made of an operator and operands has the node for its tree. -/
theorem ofNode_eq_ok {op : Operator} {es : List (Expr α)} {e : Expr α} (h : ofNode op es = .ok e) :
    e.toTree = .node op (es.map toTree) := by
  unfold ofNode at h
  split at h
  · cases h; rw [toTree, List.map_cons]
  · cases h
  · cases h; rw [toTree, List.map_cons, List.map_nil]
  · cases h
  · split at h <;> cases h
  · cases h

/-- A tree that stands for an expression is the tree of that expression. -/
theorem toTree_of_toExpr {t : Tree α} {e : Expr α} (h : t.toExpr = .ok e) : e.toTree = t := by
  induction t using Tree.operands_induction generalizing e with
  | num a => rw [Tree.toExpr] at h; cases h; rw [toTree]
  | var x => rw [Tree.toExpr] at h; cases h; rw [toTree]
  | node op ts ih =>
    rw [Tree.toExpr] at h
    cases hts : ts.mapM Tree.toExpr with
    | error u => rw [hts] at h; cases h
    | ok es =>
      rw [hts] at h
      rw [ofNode_eq_ok h, map_of_mapM_eq_ok (fun t ht e he => ih t ht he) hts]

/-- The tree of an expression stands for the expression. -/
theorem toExpr_toTree (e : Expr α) : e.toTree.toExpr = .ok e := by
  induction e using operands_induction with
  | num a => rw [toTree, Tree.toExpr]
  | var x => rw [toTree, Tree.toExpr]
  | nary op e es ihe ihes =>
    have hes : ((e :: es).map toTree).mapM Tree.toExpr = .ok (e :: es) :=
      mapM_map_eq_ok (List.forall_mem_cons.2 ⟨ihe, ihes⟩)
    rw [toTree, Tree.toExpr, ← List.map_cons, hes]
    rfl
  | func f e ih =>
    have he : ([e].map toTree).mapM Tree.toExpr = .ok [e] :=
      mapM_map_eq_ok (List.forall_mem_singleton.2 ih)
    rw [toTree, Tree.toExpr]
    exact congrArg (· >>= ofNode (.func f)) he

/-- Different expressions have different trees. -/
theorem toTree_injective {d e : Expr α} (h : d.toTree = e.toTree) : d = e := by
  have hread := toExpr_toTree d
  rw [h, toExpr_toTree] at hread
  exact (Except.ok.inj hread).symm

theorem eq_num_of_toTree {e : Expr α} {a : α} (h : e.toTree = .num a) : e = num a :=
  toTree_injective (by rw [h, toTree])

/-- Trees of expressions one by one are the trees of a list of expressions. -/
theorem exists_map_toTree {P : Expr α → Prop} {ts : List (Tree α)}
    (h : ∀ t ∈ ts, ∃ e : Expr α, e.toTree = t ∧ P e) :
    ∃ es : List (Expr α), es.map toTree = ts ∧ ∀ e ∈ es, P e := by
  induction ts with
  | nil => exact ⟨[], rfl, List.forall_mem_nil _⟩
  | cons t ts ih =>
    obtain ⟨⟨e, rfl, he⟩, hts⟩ := List.forall_mem_cons.1 h
    obtain ⟨es, rfl, hes⟩ := ih hts
    exact ⟨e :: es, rfl, List.forall_mem_cons.2 ⟨he, hes⟩⟩

/-- An expression and its tree have the same variables, in the same order. -/
@[simp] theorem leafNames_toTree (e : Expr α) : e.toTree.leafNames = e.leafNames := by
  induction e using operands_induction with
  | num a => rw [toTree, Tree.leafNames, leafNames]
  | var x => rw [toTree, Tree.leafNames, leafNames]
  | nary op e es ihe ihes =>
    have hes : (es.map toTree).map Tree.leafNames = es.map leafNames := by
      rw [List.map_map]
      exact List.map_congr_left ihes
    rw [toTree, Tree.leafNames, leafNames, List.map_cons, List.flatten_cons, ihe, hes]
  | func f e ih =>
    rw [toTree, Tree.leafNames, leafNames, List.map_singleton, ih]
    exact List.append_nil _

end Expr

end Fluxion

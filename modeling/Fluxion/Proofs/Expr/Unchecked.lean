import Fluxion.Expr.Unchecked
import Fluxion.Proofs.Expr.NormalForms
import Fluxion.Proofs.Expr.Variables
import Fluxion.Proofs.Simplify.Names

/-!
# Validation is enough

A tree that stands for an expression can be taken for one unchecked, and so can all that is computed
from it. The unchecked derivative and value of the tree of an expression are the derivative and the
value of the expression (`Expr.derivative?_toTree`, `Expr.eval?_toTree`), for each rule is the same
whether it is given expressions or their trees. The normal form of an expression is an expression,
so this repeats along derivatives of any order (`Expr.nthDerivative?_toTree`), where no variable
comes in that was not there.
-/

namespace Fluxion

variable {α : Type} [Scalar α]

namespace Expr

/-- The trees of an expression and of its derivative. -/
def toTrees (p : Expr α × Expr α) : Tree α × Tree α := (p.1.toTree, p.2.toTree)

omit [Scalar α] in
theorem map_fst_toTrees (ps : List (Expr α × Expr α)) :
    (ps.map toTrees).map Prod.fst = (ps.map Prod.fst).map toTree := by
  rw [List.map_map, List.map_map]
  rfl

omit [Scalar α] in
theorem map_snd_toTrees (ps : List (Expr α × Expr α)) :
    (ps.map toTrees).map Prod.snd = (ps.map Prod.snd).map toTree := by
  rw [List.map_map, List.map_map]
  rfl

/-! ## Rules on trees -/

omit [Scalar α] in
/-- The tree of an operator is a node with the trees of its operands. -/
theorem toTree_nary (op : NaryOp) (e : Expr α) (es : List (Expr α)) :
    (nary op e es).toTree = .node (.nary op) ((e :: es).map toTree) := by
  rw [toTree, List.map_cons]

omit [Scalar α] in
theorem toTree_binary (op : NaryOp) (a b : Expr α) :
    (binary op a b).toTree = .binary op a.toTree b.toTree :=
  toTree_nary op a [b]

/-- Sums of expressions and of their trees are built alike. -/
theorem toTree_sum (es : List (Expr α)) : (sum es).toTree = Tree.sum (es.map toTree) := by
  cases es with
  | nil => rw [sum, toTree]; rfl
  | cons e es => exact toTree_nary .add e es

theorem toTree_product (es : List (Expr α)) :
    (product es).toTree = Tree.product (es.map toTree) := by
  cases es with
  | nil => rw [product, toTree]; rfl
  | cons e es => exact toTree_nary .mul e es

/-- The terms of the product rule are built alike. -/
theorem map_toTree_productTerms (before : List (Expr α)) (ps : List (Expr α × Expr α)) :
    (productTerms before ps).map toTree =
      Tree.productTerms (before.map toTree) (ps.map toTrees) := by
  induction ps generalizing before with
  | nil => rfl
  | cons p ps ih =>
    rw [productTerms, List.map_cons, toTree_product, ih, List.map_append, List.map_append,
      List.map_cons, List.map_cons, ← map_fst_toTrees]
    rfl

omit [Scalar α] in
/-- Operands are matched on trees from the last one on. -/
theorem exists_reverse_toTrees (first : Expr α × Expr α) (ps : List (Expr α × Expr α)) :
    ∃ q qs, ((first :: ps).map toTrees).reverse = q :: qs ∧
      (q :: qs).map Prod.fst = ((first.1 :: ps.map Prod.fst).map toTree).reverse := by
  obtain ⟨q, qs, hreverse⟩ := List.exists_cons_of_ne_nil
    (l := ((first :: ps).map toTrees).reverse) (by simp)
  refine ⟨q, qs, hreverse, ?_⟩
  rw [← hreverse, List.map_reverse, ← List.map_cons, map_fst_toTrees]

omit [Scalar α] in
/-- A first operand over the divisors that follow it, here in reverse. -/
theorem toTree_quotient (first : Expr α) (divisors : List (Expr α)) :
    (quotient first divisors).toTree = Tree.quotient ((first :: divisors).map toTree).reverse := by
  cases divisors with
  | nil => rfl
  | cons d ds =>
    have hlong : ∀ t, ((first :: d :: ds).map toTree).reverse ≠ [t] := by
      intro t h
      have hlength := congrArg List.length h
      simp at hlength
    rw [Tree.quotient.eq_2 _ hlong, List.reverse_reverse]
    exact toTree_nary .div first (d :: ds)

theorem toTree_quotientRule (a a' b b' : Expr α) :
    (quotientRule a a' b b').toTree = .binary .div
      (.binary .sub (.binary .mul a'.toTree b.toTree) (.binary .mul a.toTree b'.toTree))
      (.binary .pow b.toTree (.num (Scalar.ofNat 2))) := by
  simp only [quotientRule, toTree_binary, toTree]

/-- With one more divisor at the end, the rule is applied once more. -/
theorem quotientDerivative_append (first : Expr α) (ds : List (Expr α)) (n' : Expr α)
    (ps : List (Expr α × Expr α)) (p : Expr α × Expr α) :
    quotientDerivative first ds n' (ps ++ [p]) =
      quotientRule (quotient first (ds ++ ps.map Prod.fst)) (quotientDerivative first ds n' ps)
        p.1 p.2 := by
  induction ps generalizing ds n' with
  | nil => simp only [List.nil_append, quotientDerivative, List.map_nil, List.append_nil]
  | cons q ps ih =>
    rw [List.cons_append, quotientDerivative, ih, List.append_assoc]
    rfl

/-- Quotients are differentiated from the last divisor on, which on trees is first in the list. -/
theorem toTree_quotientDerivative (first : Expr α × Expr α) (ps : List (Expr α × Expr α)) :
    (quotientDerivative first.1 [] first.2 ps).toTree =
      Tree.quotientDerivative ((first :: ps).map toTrees).reverse := by
  induction ps using List.reverseRecOn with
  | nil => rfl
  | append_singleton ps p ih =>
    rw [quotientDerivative_append, toTree_quotientRule, ih, ← List.cons_append, List.map_append,
      List.reverse_append]
    obtain ⟨q, qs, hreverse, hfst⟩ := exists_reverse_toTrees first ps
    have hquotient : (quotient first.1 ([] ++ ps.map Prod.fst)).toTree =
        Tree.quotient ((q :: qs).map Prod.fst) := by
      rw [List.nil_append, toTree_quotient, hfst]
    rw [hquotient, hreverse]
    rfl

omit [Scalar α] in
theorem hasVariable_toTree (e : Expr α) : e.toTree.hasVariable = e.hasVariable := by
  rw [Tree.hasVariable, leafNames_toTree, hasVariable]

/-- The power rule asks expressions and trees the same questions, whether base and exponent have
variables. -/
theorem toTree_powerRule (b b' e e' : Expr α) :
    (powerRule b b' e e').toTree = Tree.powerRule b.toTree b'.toTree e.toTree e'.toTree := by
  have hln : (func .ln b).toTree = .node (.func .ln) [b.toTree] := by rw [toTree]
  have hone : (one : Expr α).toTree = .num (Scalar.ofNat 1) := by rw [one, toTree]
  have hpower := toTree_binary .pow b e
  have hlowered : (binary .pow b (binary .sub e one)).toTree =
      .binary .pow b.toTree (.binary .sub e.toTree (.num (Scalar.ofNat 1))) := by
    rw [toTree_binary, toTree_binary, hone]
  rw [powerRule, Tree.powerRule, hasVariable_toTree, hasVariable_toTree]
  split
  · rw [toTree_product, List.map_cons, List.map_cons, List.map_singleton, hln, hpower]
    rfl
  split
  · rw [toTree_product, List.map_cons, List.map_cons, List.map_singleton, hlowered]
    rfl
  · rw [toTree_sum, List.map_cons, List.map_singleton, toTree_product, toTree_product]
    simp only [List.map_cons, List.map_nil, hln, hpower, hlowered]
    rfl

/-- With one more exponent at the end, the rule is applied once more. -/
theorem powerDerivative_append (b b' : Expr α) (ps : List (Expr α × Expr α)) (p : Expr α × Expr α) :
    powerDerivative b b' (ps ++ [p]) =
      powerRule ((ps.map Prod.fst).foldl (binary .pow) b) (powerDerivative b b' ps) p.1 p.2 := by
  induction ps generalizing b b' with
  | nil => rfl
  | cons q ps ih =>
    rw [List.cons_append, powerDerivative, ih]
    rfl

omit [Scalar α] in
theorem toTree_foldl_pow (b : Expr α) (es : List (Expr α)) :
    (es.foldl (binary .pow) b).toTree = Tree.power ((b :: es).map toTree).reverse := by
  induction es using List.reverseRecOn with
  | nil => rfl
  | append_singleton es e ih =>
    obtain ⟨t, ts, hreverse⟩ := List.exists_cons_of_ne_nil
      (l := ((b :: es).map toTree).reverse) (by simp)
    rw [List.foldl_append, List.foldl_cons, List.foldl_nil, toTree_binary, ih, ← List.cons_append,
      List.map_append, List.reverse_append, hreverse]
    rfl

/-- Powers are differentiated from the last exponent on. -/
theorem toTree_powerDerivative (first : Expr α × Expr α) (ps : List (Expr α × Expr α)) :
    (powerDerivative first.1 first.2 ps).toTree =
      Tree.powerDerivative ((first :: ps).map toTrees).reverse := by
  induction ps using List.reverseRecOn with
  | nil => rfl
  | append_singleton ps p ih =>
    rw [powerDerivative_append, toTree_powerRule, ih, ← List.cons_append, List.map_append,
      List.reverse_append]
    obtain ⟨q, qs, hreverse, hfst⟩ := exists_reverse_toTrees first ps
    have hpower : ((ps.map Prod.fst).foldl (binary .pow) first.1).toTree =
        Tree.power ((q :: qs).map Prod.fst) := by
      rw [toTree_foldl_pow, hfst]
    rw [hpower, hreverse]
    rfl

/-- Each operator has the same rule on trees as on expressions. -/
theorem toTree_naryDerivative (op : NaryOp) (first : Expr α × Expr α)
    (ps : List (Expr α × Expr α)) :
    (naryDerivative op first ps).toTree = Tree.naryDerivative op ((first :: ps).map toTrees) := by
  cases op with
  | add | sub =>
    rw [naryDerivative, toTree_nary, ← List.map_cons, ← map_snd_toTrees]
    rfl
  | mul =>
    rw [naryDerivative, toTree_sum, map_toTree_productTerms]
    rfl
  | div => exact toTree_quotientDerivative first ps
  | pow => exact toTree_powerDerivative first ps

/-- Each function has the same rule on trees as on expressions. -/
theorem toTree_funcDerivative (f : Func) (e e' : Expr α) :
    (funcDerivative f e e').toTree = Tree.funcDerivative f e.toTree e'.toTree := by
  cases f with
  | ln | sin | cos =>
    simp only [funcDerivative, toTree_product, List.map_cons, List.map_nil, toTree_binary, one,
      toTree]
    rfl

/-! ## Results without a check -/

theorem mapM_map_eq_some {β γ δ : Type} {f : γ → Option δ} {g : β → γ} {d : β → δ} {bs : List β}
    (h : ∀ b ∈ bs, f (g b) = some (d b)) : (bs.map g).mapM f = some (bs.map d) := by
  induction bs with
  | nil => rfl
  | cons b bs ih =>
    obtain ⟨hb, hbs⟩ := List.forall_mem_cons.1 h
    rw [List.map_cons, List.mapM_cons, hb, ih hbs]
    rfl

/-- The unchecked derivative of an expression is its derivative. -/
theorem derivative?_toTree (v : String) (e : Expr α) :
    e.toTree.derivative? v = some (e.derivative v).toTree := by
  induction e using operands_induction with
  | num a => rw [toTree, Tree.derivative?, derivative, toTree]
  | var x => rw [toTree, Tree.derivative?, derivative, toTree]
  | nary op e es ihe ihes =>
    have hall : ((e :: es).map toTree).mapM (Tree.derivative? v) =
        some ((e :: es).map fun d => (d.derivative v).toTree) :=
      mapM_map_eq_some (List.forall_mem_cons.2 ⟨ihe, ihes⟩)
    -- the trees of the pairs are the pairs of the trees
    have hzip : ((e :: es).map toTree).zip ((e :: es).map fun d => (d.derivative v).toTree) =
        ((e :: es).map fun d => (d, d.derivative v)).map toTrees := by
      rw [List.zip_map', List.map_map]
      rfl
    rw [toTree_nary, Tree.derivative?, hall, derivative, toTree_naryDerivative]
    show some (Tree.naryDerivative op _) = some (Tree.naryDerivative op _)
    rw [hzip]
    rfl
  | func f e ih =>
    rw [toTree, Tree.derivative?, ih, derivative, toTree_funcDerivative]
    rfl

/-- After the first derivative the rest starts from its normal form. -/
theorem nthDerivative?_normalForm (v : String) (e : Expr α) (n : ℕ) :
    e.toTree.nthDerivative? v (n + 1) = (e.derivative v).normalForm.nthDerivative? v n := by
  rw [Tree.nthDerivative?, derivative?_toTree]
  rfl

/-- Derivatives of any order exist without a check, as those with one. -/
theorem nthDerivative?_toTree (v : String) (n : ℕ) (e : Expr α) :
    ∃ r : Expr α, e.toTree.nthDerivative? v n = some r.toTree ∧
      e.toTree.nthDerivative v n = .ok r.toTree ∧ r.leafNames ⊆ e.leafNames := by
  induction n generalizing e with
  | zero =>
    refine ⟨e, rfl, ?_, List.Subset.refl _⟩
    rw [Tree.nthDerivative, toExpr_toTree]
    rfl
  | succ n ih =>
    obtain ⟨d, hd⟩ := isExpr_normalForm (e.derivative v)
    have hnames : d.leafNames ⊆ e.leafNames := by
      intro x hx
      rw [← leafNames_toTree, hd] at hx
      have hderivative := Tree.leafNames_simplify_subset (e.derivative v).toTree hx
      rw [leafNames_toTree] at hderivative
      exact namesIn_derivative v (P := (· ∈ e.leafNames)) (fun _ h => h) x hderivative
    obtain ⟨r, hunchecked, hchecked, hsubset⟩ := ih d
    rw [nthDerivative?_normalForm, nthDerivative_toTree_succ, ← hd]
    exact ⟨r, hunchecked, hchecked, fun x hx => hnames (hsubset hx)⟩

/-- A list of computations none of which is refused is not refused. -/
theorem run_mapM_map {β γ δ ε : Type} {f : γ → Option (Except ε δ)} {g : β → γ}
    {d : β → Except ε δ} {bs : List β} (h : ∀ b ∈ bs, f (g b) = some (d b)) :
    ((bs.map g).mapM fun c => ExceptT.mk (f c)).run = some (bs.mapM d) := by
  induction bs with
  | nil => rfl
  | cons b bs ih =>
    obtain ⟨hb, hbs⟩ := List.forall_mem_cons.1 h
    have htail : ((bs.map g).mapM fun c => ExceptT.mk (f c)) = ExceptT.mk (some (bs.mapM d)) :=
      ih hbs
    rw [List.map_cons, List.mapM_cons, hb, htail, List.mapM_cons]
    cases d b with
    | error u => rfl
    | ok a =>
      cases bs.mapM d with
      | error u => rfl
      | ok as => rfl

/-- The unchecked value of an expression is its value. -/
theorem eval?_toTree (bindings : Bindings α) (e : Expr α) :
    e.toTree.eval? bindings = some (e.eval bindings) := by
  induction e using operands_induction with
  | num a => rw [toTree, Tree.eval?, eval]
  | var x =>
    rw [toTree, Tree.eval?, eval]
    cases bindings.lookup x <;> rfl
  | nary op e es ihe ihes =>
    have hall : (((e :: es).map toTree).mapM fun t => ExceptT.mk (t.eval? bindings)) =
        ExceptT.mk (some ((e :: es).mapM (eval bindings))) :=
      run_mapM_map (List.forall_mem_cons.2 ⟨ihe, ihes⟩)
    rw [toTree_nary, Tree.eval?, hall, eval, List.mapM_cons]
    -- both evaluations stop at the first operand that fails
    cases e.eval bindings with
    | error u => rfl
    | ok a =>
      cases es.mapM (eval bindings) with
      | error u => rfl
      | ok as => rfl
  | func f e ih =>
    rw [toTree, Tree.eval?, ih, eval]
    cases e.eval bindings <;> rfl

/-- With no variable more, an expression has a value wherever the other has one. -/
theorem eval_eq_ok_of_subset {d e : Expr α} (hnames : d.leafNames ⊆ e.leafNames)
    {bindings : Bindings α} {a : α} (h : e.eval bindings = .ok a) :
    ∃ b, d.eval bindings = .ok b :=
  ⟨_, eval_eq_ok fun x hx => covers_of_eval_eq_ok h x (hnames hx)⟩

end Expr

namespace Tree

open Fluxion.Expr

/-- The derivative, the normal form and the derivatives of any order of a validated tree can be
computed without a check. They are validated themselves, have no variable that the tree does not
have, and have a value wherever the tree has one. -/
theorem validated_of_validated {t : Tree α} {e : Expr α} (h : t.toExpr = .ok e) (v : String)
    (n : ℕ) :
    ∃ d r : Tree α, t.derivative? v = some d ∧ d = (e.derivative v).toTree ∧
      t.nthDerivative? v n = some r ∧ t.nthDerivative v n = .ok r ∧
      (∀ bindings, t.eval? bindings = some (e.eval bindings)) ∧
      ∀ s ∈ [d, t.simplify, r], ∃ e' : Expr α, s.toExpr = .ok e' ∧ s.leafNames ⊆ t.leafNames ∧
        ∀ bindings, s.eval? bindings = some (e'.eval bindings) ∧
          ∀ a, e.eval bindings = .ok a → ∃ b, e'.eval bindings = .ok b := by
  obtain rfl := toTree_of_toExpr h
  obtain ⟨r, hunchecked, hchecked, hr⟩ := nthDerivative?_toTree v n e
  obtain ⟨s, hs⟩ := isExpr_normalForm e
  have hderivative : (e.derivative v).leafNames ⊆ e.leafNames :=
    namesIn_derivative v (P := (· ∈ e.leafNames)) fun _ hx => hx
  have hnormal : s.leafNames ⊆ e.leafNames := by
    rw [← leafNames_toTree s, hs, ← leafNames_toTree e]
    exact leafNames_simplify_subset _
  -- all that is asked of a result holds of any expression with no new variable
  have hgood : ∀ e' : Expr α, e'.leafNames ⊆ e.leafNames → ∃ e'' : Expr α,
      e'.toTree.toExpr = .ok e'' ∧ e'.toTree.leafNames ⊆ e.toTree.leafNames ∧
        ∀ bindings, e'.toTree.eval? bindings = some (e''.eval bindings) ∧
          ∀ a, e.eval bindings = .ok a → ∃ b, e''.eval bindings = .ok b := by
    intro e' hnames
    refine ⟨e', toExpr_toTree e', ?_, fun bindings => ⟨eval?_toTree bindings e', fun a ha => ?_⟩⟩
    · rwa [leafNames_toTree, leafNames_toTree]
    · exact eval_eq_ok_of_subset hnames ha
  refine ⟨_, _, derivative?_toTree v e, rfl, hunchecked, hchecked, fun b => eval?_toTree b e, ?_⟩
  rw [show e.toTree.simplify = s.toTree from hs.symm]
  exact List.forall_mem_cons.2 ⟨hgood _ hderivative, List.forall_mem_cons.2
    ⟨hgood s hnormal, List.forall_mem_singleton.2 (hgood r hr)⟩⟩

/-- The tree of `ln(x) ^ y`, differentiated twice with respect to `x`. -/
theorem validated_of_validated_power :
    ∃ d r : Tree Float,
      (node (.nary .pow) [node (.func .ln) [var "x"], var "y"] : Tree Float).derivative? "x" =
        some d ∧
      (node (.nary .pow) [node (.func .ln) [var "x"], var "y"] : Tree Float).nthDerivative? "x" 2 =
        some r ∧
      (∃ e, d.toExpr = .ok e) ∧ ∃ e, r.toExpr = .ok e := by
  have hread : (node (.nary .pow) [node (.func .ln) [var "x"], var "y"] : Tree Float).toExpr =
      .ok (.nary .pow (.func .ln (.var "x")) [.var "y"]) := by
    simp [toExpr, ofNode, pure, Except.pure, bind, Except.bind]
  obtain ⟨d, r, hd, -, hr, -, -, hall⟩ := validated_of_validated hread "x" 2
  obtain ⟨e, he, -⟩ := hall d (by simp)
  obtain ⟨e', he', -⟩ := hall r (by simp)
  exact ⟨d, r, hd, hr, ⟨e, he⟩, e', he'⟩

end Tree

end Fluxion

import Fluxion.Proofs.Expr.Trees
import Fluxion.Proofs.Simplify.Tests
import Fluxion.Tree.PostOrder
import Mathlib.Data.List.Basic

/-!
# What the rules have in common

A relation between a tree and what becomes of it that holds for every single rule holds for a pass,
and for the pass repeated (`Simplify.root_respects`).

The first such relation is on operands. A rule takes operands over, or their operands, and what it
puts in besides is a constant, a variable with a coefficient or a variable with a whole exponent. So
a property that passes from operators to operands and holds of the latter three is one that operands
never lose (`Hereditary.root`).
-/

namespace Fluxion

variable {α : Type}

/-! ## Subtrees -/

namespace Tree

variable {Q : Tree α → Prop}

/-- Every subtree has the property. -/
def Each (Q : Tree α → Prop) (t : Tree α) : Prop := ∀ s ∈ t.postOrder, Q s

theorem each_num {a : α} : (num a).Each Q ↔ Q (num a) := by simp [Each, postOrder]

theorem each_var {x : String} : (var x).Each Q ↔ Q (var x) := by simp [Each, postOrder]

/-- Every subtree has the property if all of those below do, and the tree itself. -/
theorem each_node {op : Operator} {ts : List (Tree α)} :
    (node op ts).Each Q ↔ (∀ t ∈ ts, t.Each Q) ∧ Q (node op ts) := by
  simp only [Each, postOrder, List.mem_append, ← List.flatMap_def, List.mem_flatMap,
    List.mem_singleton]
  constructor
  · intro h
    exact ⟨fun t ht s hs => h s (Or.inl ⟨t, ht, hs⟩), h _ (Or.inr rfl)⟩
  · rintro ⟨hts, hnode⟩ s (⟨t, ht, hs⟩ | rfl)
    · exact hts t ht s hs
    · exact hnode

theorem Each.self {t : Tree α} (h : t.Each Q) : Q t := by
  cases t with
  | num a => exact each_num.1 h
  | var x => exact each_var.1 h
  | node op ts => exact (each_node.1 h).2

theorem Each.mono {R : Tree α → Prop} (hQR : ∀ s, Q s → R s) {t : Tree α} (h : t.Each Q) :
    t.Each R :=
  fun s hs => hQR s (h s hs)

end Tree

/-! ## Relations that rules respect -/

/-- Whatever the function makes of a tree is related to it. -/
def Respects (R : Tree α → Tree α → Prop) (f : Tree α → Option (Tree α)) : Prop :=
  ∀ t t', f t = some t' → R t t'

namespace Simplify

variable [Scalar α]

variable {R : Tree α → Tree α → Prop}

/-- What every rule respects, simplification at the root does. -/
theorem root_respects (hrefl : ∀ t, R t t) (htrans : ∀ s t u, R s t → R t u → R s u)
    (h : ∀ f ∈ rewrites, Respects R f) (t : Tree α) : R t (root t).result := by
  have hcomposes : Rule.Composes fun (t : Tree α) w => R t w.result := fun _ _ _ => htrans _ _ _
  exact root_ensures hcomposes hrefl (fun f hf step => .named (h f hf)) t

/-! ## What the rules make operands of -/

omit [Scalar α] in
/-- Only a node of the one operator is replaced by its operands. -/
theorem isInlined_eq_true {inner : Option NaryOp} {t : Tree α} (h : isInlined inner t = true) :
    ∃ op ts, inner = some op ∧ t = .node (.nary op) ts := by
  unfold isInlined at h
  split at h
  · next op =>
    cases t with
    | num a => cases h
    | var x => cases h
    | node op' ts =>
      have heq : op' = .nary op := by simpa [Tree.isOperator, Tree.operator?] using h
      exact ⟨op, ts, rfl, by rw [heq]⟩
  · cases h

omit [Scalar α] in
/-- Nothing is added but the constant. -/
theorem mem_placeConstant {a : α} {ts : List (Tree α)} {s : Tree α}
    (h : s ∈ placeConstant a ts) : s ∈ ts ∨ s = .num a := by
  induction ts with
  | nil => cases h
  | cons t ts ih =>
    unfold placeConstant at h
    split at h
    · rcases List.mem_cons.1 h with rfl | h
      · exact Or.inr rfl
      · exact Or.inl (List.mem_cons_of_mem _ (List.mem_of_mem_filter h))
    · rcases List.mem_cons.1 h with rfl | h
      · exact Or.inl (List.mem_cons_self ..)
      · exact (ih h).imp (List.mem_cons_of_mem _) id

/-- Of the operands some are left, and at most one constant is new. -/
theorem mem_gatherConstants {op : NaryOp} {ts : List (Tree α)} {s : Tree α}
    (h : s ∈ gatherConstants op ts) : s ∈ ts ∨ ∃ a, gathered? op ts = some a ∧ s = .num a := by
  unfold gatherConstants at h
  split at h
  · exact Or.inl h
  · next a ha => exact (mem_placeConstant h).imp id fun hs => ⟨a, ha, hs⟩

/-- An operand that decides the whole makes it a constant. -/
theorem shortCircuit_eq_some {t t' : Tree α}
    (h : powerZero t = some t' ∨ zeroPower t = some t' ∨ divideZero t = some t' ∨
      multiplyZero t = some t') : ∃ a, t' = .num a := by
  rcases h with h | h | h | h
  · obtain ⟨base, exponents, -, -, rfl⟩ := powerZero_eq_some h
    exact ⟨_, rfl⟩
  · obtain ⟨base, exponents, -, -, rfl⟩ := zeroPower_eq_some h
    exact ⟨_, rfl⟩
  · obtain ⟨dividend, divisors, -, -, rfl⟩ := divideZero_eq_some h
    exact ⟨_, rfl⟩
  · obtain ⟨factors, -, -, rfl⟩ := multiplyZero_eq_some h
    exact ⟨_, rfl⟩

/-- A property that passes to operands and holds of all that rules put in besides, powers apart. -/
structure Inherited (P : Tree α → Prop) : Prop where
  num (a : α) : P (.num a)
  operand {op : NaryOp} {ts : List (Tree α)} : P (.node (.nary op) ts) → ∀ t ∈ ts, P t
  term {x : String} {c : α} : P (.var x) → Scalar.isZero c = false → Scalar.isOne c = false →
    P (.node (.nary .mul) [.var x, .num c])

/-- A property that passes to operands and holds of all that rules put in besides. -/
structure Hereditary (P : Tree α → Prop) : Prop extends Inherited P where
  power {x : String} (n : Nat) : P (.var x) →
    P (.node (.nary .pow) [.var x, .num (Scalar.ofNat (n + 2))])

omit [Scalar α] in
/-- The property, or arithmetic on operands that have it. -/
def BelowRoot (P : Tree α → Prop) (t : Tree α) : Prop :=
  P t ∨ ∃ op ts, t = .node (.nary op) ts ∧ ∀ u ∈ ts, P u

omit [Scalar α] in
/-- With the root itself the property holds of every subtree. -/
theorem BelowRoot.each {Q : Tree α → Prop} {t : Tree α} (h : BelowRoot (Tree.Each Q) t)
    (hQ : Q t) : t.Each Q := by
  rcases h with h | ⟨op, ts, rfl, hts⟩
  · exact h
  · exact Tree.each_node.2 ⟨hts, hQ⟩

omit [Scalar α] in
/-- Either way every subtree of an operand has the property. -/
theorem BelowRoot.operands {Q : Tree α → Prop} {op : NaryOp} {ts : List (Tree α)}
    (h : BelowRoot (Tree.Each Q) (.node (.nary op) ts)) : ∀ u ∈ ts, u.Each Q := by
  rcases h with h | ⟨op', ts', heq, hts⟩
  · exact (Tree.each_node.1 h).1
  · cases heq
    exact hts

namespace Inherited

variable {P : Tree α → Prop} (hP : Inherited P)

include hP

/-- The operands have the property, whether or not the root has it. -/
theorem operands {op : NaryOp} {ts : List (Tree α)} (h : BelowRoot P (.node (.nary op) ts)) :
    ∀ t ∈ ts, P t := by
  rcases h with h | ⟨op', ts', heq, hts⟩
  · exact hP.operand h
  · cases heq
    exact hts

/-- What an operand is replaced by are its operands, or it is kept. -/
theorem spread {inner : Option NaryOp} {t : Tree α} (ht : P t) :
    ∀ s ∈ Simplify.spread inner t, P s := by
  intro s hs
  unfold Simplify.spread at hs
  split at hs
  · next hinlined =>
    obtain ⟨op, ts, -, rfl⟩ := isInlined_eq_true hinlined
    exact hP.operand ht s hs
  · rwa [List.mem_singleton.1 hs]

/-- Gathering adds a constant, and constants have the property. -/
theorem gatherConstants {op : NaryOp} {ts : List (Tree α)} (hts : ∀ t ∈ ts, P t) :
    ∀ s ∈ Simplify.gatherConstants op ts, P s := by
  intro s hs
  rcases mem_gatherConstants hs with hs | ⟨a, -, rfl⟩
  · exact hts s hs
  · exact hP.num a

theorem gatherRight {op : NaryOp} {t : Tree α} {ts : List (Tree α)} (ht : P t)
    (hts : ∀ t ∈ ts, P t) : ∀ s ∈ Simplify.gatherRight op t ts, P s := by
  unfold Simplify.gatherRight
  split
  · exact List.forall_mem_cons.2 ⟨hP.num _, fun s hs => hts s (List.mem_of_mem_filter hs)⟩
  · exact List.forall_mem_cons.2 ⟨ht, hP.gatherConstants hts⟩

/-- The variable of a linear term has the property if the term has it. -/
theorem variable_of_linearTerm {t : Tree α} {x : String} {c : α} (ht : P t)
    (h : linearTerm? t = some (x, c)) : P (.var x) := by
  unfold linearTerm? at h
  split at h
  · cases h
    exact ht
  · cases h
    exact hP.operand ht _ (by simp)
  · cases h
    exact hP.operand ht _ (by simp)
  · cases h

/-- A merged term is zero, the variable, or the variable with a coefficient that is neither zero nor
one. -/
theorem normalTerm {x : String} (hx : P (.var x)) (c : α) : P (Simplify.normalTerm x c) := by
  unfold Simplify.normalTerm
  split
  · exact hP.num _
  split
  · exact hx
  · next hzero hone =>
    exact hP.term hx (Bool.eq_false_iff.2 hzero) (Bool.eq_false_iff.2 hone)

/-- Terms are kept, or merged to one in the variable of a term. -/
theorem mergeTerms {ts : List (Tree α)} (hts : ∀ t ∈ ts, P t) :
    ∀ s ∈ Simplify.mergeTerms ts, P s := by
  fun_induction Simplify.mergeTerms ts with
  | case1 => exact hts
  | case2 t ts h ih | case3 t ts x c hlinear hnil ih =>
    obtain ⟨ht, hts⟩ := List.forall_mem_cons.1 hts
    exact List.forall_mem_cons.2 ⟨ht, ih hts⟩
  | case4 t ts x c hlinear hcs ih =>
    obtain ⟨ht, hts⟩ := List.forall_mem_cons.1 hts
    exact List.forall_mem_cons.2 ⟨hP.normalTerm (hP.variable_of_linearTerm ht hlinear) _,
      ih fun s hs => hts s (List.mem_of_mem_filter hs)⟩

/-- The two parts are the merged terms in another order. -/
theorem splitTerms {ts : List (Tree α)} (hts : ∀ t ∈ ts, P t) :
    ∀ s ∈ (Simplify.splitTerms ts).1 ++ (Simplify.splitTerms ts).2, P s := by
  intro s hs
  exact hP.mergeTerms hts s ((mergeTerms_perm ts).mem_iff.2 hs)

theorem mergeDifference {t : Tree α} {ts : List (Tree α)} (ht : P t) (hts : ∀ t ∈ ts, P t) :
    ∀ s ∈ Simplify.mergeDifference t ts, P s := by
  have hreduced : P (reduceMinuend t ts).1 ∧ ∀ s ∈ (reduceMinuend t ts).2, P s := by
    fun_cases reduceMinuend t ts with
    | case1 h | case2 x c hlinear hnil => exact ⟨ht, hts⟩
    | case3 x c hlinear hcs =>
      exact ⟨hP.normalTerm (hP.variable_of_linearTerm ht hlinear) _,
        fun s hs => hts s (List.mem_of_mem_filter hs)⟩
  exact List.forall_mem_cons.2 ⟨hreduced.1, hP.splitTerms hreduced.2⟩

end Inherited

namespace Hereditary

variable {P : Tree α → Prop} (hP : Hereditary P)

include hP

/-- Factors are kept, or become a power of a factor with an exponent of two or more. -/
theorem mergeFactors {ts : List (Tree α)} (hts : ∀ t ∈ ts, P t) :
    ∀ s ∈ Simplify.mergeFactors ts, P s := by
  fun_induction Simplify.mergeFactors ts with
  | case1 => exact hts
  | case2 x ts h ih =>
    obtain ⟨ht, hts⟩ := List.forall_mem_cons.1 hts
    exact List.forall_mem_cons.2 ⟨ht, ih hts⟩
  | case3 x ts n h ih =>
    obtain ⟨ht, hts⟩ := List.forall_mem_cons.1 hts
    exact List.forall_mem_cons.2
      ⟨hP.power n ht, ih fun s hs => hts s (List.mem_of_mem_filter hs)⟩
  | case4 t ts _ ih =>
    obtain ⟨ht, hts⟩ := List.forall_mem_cons.1 hts
    exact List.forall_mem_cons.2 ⟨ht, ih hts⟩

/-- No rule takes the property from the operands. -/
theorem rewrites : ∀ f ∈ Simplify.rewrites,
    Respects (fun t t' => BelowRoot P t → BelowRoot P t') f := by
  have hnum : ∀ a, BelowRoot P (.num a) := fun a => Or.inl (hP.num a)
  have hconstant : ∀ {t}, (∃ a, t = .num a) → BelowRoot P t := by
    rintro t ⟨a, rfl⟩
    exact hnum a
  have hnary : ∀ {op ts}, (∀ u ∈ ts, P u) → BelowRoot P (.node (.nary op) ts) :=
    fun hts => Or.inr ⟨_, _, rfl, hts⟩
  simp only [Simplify.rewrites, List.forall_mem_cons]
  refine ⟨?removeNeutral, ?spliceUp, ?powerZero, ?zeroPower, ?divideZero, ?multiplyZero, ?evaluate,
    ?flatten, ?foldConstants, ?combineTerms, ?subtractTerms, ?combineFactors,
    List.forall_mem_nil _⟩ <;> intro t t' h hbelow
  case removeNeutral =>
    obtain ⟨op, ts, rfl, rfl, -⟩ := removeNeutral_eq_some h
    exact hnary fun u hu => hP.operands hbelow u ((keptOperands_sublist op ts).subset hu)
  case spliceUp =>
    obtain ⟨op, ⟨rfl, rfl⟩ | rfl⟩ := spliceUp_eq_some h
    · exact hnum _
    · exact Or.inl (hP.operands hbelow _ (List.mem_singleton_self _))
  case powerZero => exact hconstant (shortCircuit_eq_some (Or.inl h))
  case zeroPower => exact hconstant (shortCircuit_eq_some (Or.inr (Or.inl h)))
  case divideZero => exact hconstant (shortCircuit_eq_some (Or.inr (Or.inr (Or.inl h))))
  case multiplyZero => exact hconstant (shortCircuit_eq_some (Or.inr (Or.inr (Or.inr h))))
  case evaluate =>
    obtain ⟨op, ts, e, a, -, -, -, -, rfl⟩ := evaluate_eq_some h
    exact hnum a
  case flatten =>
    obtain ⟨op, first, others, rfl, -, rfl⟩ := flatten_eq_some h
    obtain ⟨hfirst, hothers⟩ := List.forall_mem_cons.1 (hP.operands hbelow)
    refine hnary (List.forall_mem_append.2 ⟨hP.spread hfirst, fun u hu => ?_⟩)
    -- an operand of an operand that is inlined
    obtain ⟨o, ho, hu⟩ := List.mem_flatMap.1 hu
    exact hP.spread (hothers o ho) u hu
  case foldConstants =>
    obtain ⟨op, first, others, us, rfl, rfl, -, hus⟩ := foldConstants_eq_some h
    have hts := hP.operands hbelow
    obtain ⟨hfirst, hothers⟩ := List.forall_mem_cons.1 hts
    rcases hus with ⟨-, rfl⟩ | ⟨-, rfl⟩ | ⟨-, -, rfl⟩
    · exact hnary (hP.gatherConstants hts)
    · exact hnary (hP.gatherRight hfirst hothers)
    · exact hnary (List.forall_mem_cons.2 ⟨hfirst, hP.gatherConstants hothers⟩)
  case combineTerms =>
    obtain ⟨ts, rfl, -, rfl⟩ := combineTerms_eq_some.1 h
    exact hnary (hP.mergeTerms (hP.operands hbelow))
  case subtractTerms =>
    obtain ⟨first, others, rfl, -, rfl⟩ := subtractTerms_eq_some.1 h
    obtain ⟨hfirst, hothers⟩ := List.forall_mem_cons.1 (hP.operands hbelow)
    exact hnary (hP.mergeDifference hfirst hothers)
  case combineFactors =>
    obtain ⟨ts, rfl, -, rfl⟩ := combineFactors_eq_some.1 h
    exact hnary (hP.mergeFactors (hP.operands hbelow))

/-- Operands never lose the property, however often the rules are applied at the root. -/
theorem root {t : Tree α} (h : BelowRoot P t) : BelowRoot P (Simplify.root t).result :=
  root_respects (R := fun t t' => BelowRoot P t → BelowRoot P t') (fun _ h => h)
    (fun _ _ _ hst htu hs => htu (hst hs)) hP.rewrites t h

end Hereditary

end Simplify

end Fluxion

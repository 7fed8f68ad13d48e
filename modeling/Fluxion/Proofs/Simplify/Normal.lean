import Fluxion.Proofs.Simplify.Settled

/-!
# The normal form

What a tree looks like to which no rule applies: one condition on operands for each rule
(`NormalOperands`), and none but constants are expressions without variables. Since no rule applies
to any subtree of a simplified tree, all of them are normal (`Tree.simplify_normal`).
-/

namespace Fluxion

variable {α : Type} [Scalar α]

open Simplify

/-- Operands that no rule changes. -/
structure NormalOperands (op : NaryOp) (ts : List (Tree α)) : Prop where
  /-- There are at least two. -/
  two : 2 ≤ ts.length
  /-- None is near the neutral number, except the first where that is neutral on the right only. -/
  neutral : ∀ u ∈ ts.tail, u.isNear (Simplify.neutral op) = false
  neutral_first : op = .add ∨ op = .mul → ∀ u ∈ ts.head?, u.isNear (Simplify.neutral op) = false
  /-- No factor, exponent, dividend or base is near zero. -/
  factor : op = .mul → ∀ u ∈ ts, u.isNear (Scalar.ofNat 0) = false
  exponent : op = .pow → ∀ u ∈ ts.tail, u.isNear (Scalar.ofNat 0) = false
  first : op = .div ∨ op = .pow → ∀ u ∈ ts.head?, u.isNear (Scalar.ofNat 0) = false
  /-- No term is a sum, no factor a product, no subtrahend a sum and no base a power. -/
  flat : op = .add ∨ op = .mul → ∀ u ∈ ts, u.isOperator (.nary op) = false
  flat_subtrahend : op = .sub → ∀ u ∈ ts.tail, u.isOperator (.nary .add) = false
  flat_base : op = .pow → ∀ u ∈ ts.head?, u.isOperator (.nary .pow) = false
  /-- At most one is a constant if there are three or more, and at most one exponent in any case. -/
  folded : op ≠ .pow → 3 ≤ ts.length → constantCount ts ≤ 1
  folded_exponents : op = .pow → constantCount ts.tail ≤ 1
  /-- No variable has two linear terms, or is a factor twice. -/
  terms : op = .add ∨ op = .sub → ∀ x, (coefficients x ts).length ≤ 1
  factors : op = .mul → ∀ x, ts.countP (isVariable x) ≤ 1

/-- The root is in normal form. -/
structure Tree.IsNormal (t : Tree α) : Prop where
  operands : ∀ op ts, t = .node (.nary op) ts → NormalOperands op ts
  /-- An expression without variables is a constant. -/
  constant : ∀ e : Expr α, t.toExpr = .ok e → t.hasVariable = false → ∃ a, t = .num a

namespace Simplify

/-! ## What it means that a rule does not apply -/

/-- With fewer than two operands an operator would be spliced up. -/
theorem two_of_spliceUp {op : NaryOp} {ts : List (Tree α)}
    (h : spliceUp (.node (.nary op) ts) = none) : 2 ≤ ts.length := by
  match ts with
  | [] => cases h
  | [t] => cases h
  | t :: u :: ts => exact Nat.le_add_left 2 ts.length

/-- If to leave out neutral operands leaves as many, none of them is neutral. -/
theorem not_isNear_of_length {op : NaryOp} {ts : List (Tree α)}
    (h : ¬(withoutNeutral op ts).length < ts.length) : ∀ u ∈ ts, u.isNear (neutral op) = false := by
  intro u hu
  have hlength : (withoutNeutral op ts).length = ts.length :=
    Nat.le_antisymm (List.length_filter_le _ _) (Nat.le_of_not_lt h)
  have hall := List.length_filter_eq_length_iff.1 hlength u hu
  simpa using hall

/-- No operand is neutral, the first apart where the neutral number is neutral on the right only. -/
theorem not_isNear_of_removeNeutral {op : NaryOp} {t : Tree α} {ts : List (Tree α)}
    (h : removeNeutral (.node (.nary op) (t :: ts)) = none) :
    (∀ u ∈ ts, u.isNear (neutral op) = false) ∧
      (op.commutes = true → t.isNear (neutral op) = false) := by
  have hlength : ¬(keptOperands op (t :: ts)).length < (t :: ts).length := fun hlt => by
    rw [removeNeutral, if_pos hlt] at h
    cases h
  unfold keptOperands at hlength
  split at hlength
  · have hall := List.forall_mem_cons.1 (not_isNear_of_length hlength)
    exact ⟨hall.2, fun _ => hall.1⟩
  · next hcommutes =>
    refine ⟨not_isNear_of_length fun hlt => hlength ?_, fun h => absurd h hcommutes⟩
    exact Nat.succ_lt_succ hlt

theorem not_isNear_of_any {ts : List (Tree α)} {a : Tree α}
    (h : (if ts.any isZero then some a else none) = none) :
    ∀ u ∈ ts, u.isNear (Scalar.ofNat 0) = false := by
  intro u hu
  refine Bool.eq_false_iff.2 fun hzero => ?_
  rw [if_pos (List.any_eq_true.2 ⟨u, hu, hzero⟩)] at h
  cases h

theorem not_isNear_of_first {t a : Tree α} (h : (if isZero t then some a else none) = none) :
    t.isNear (Scalar.ofNat 0) = false := by
  refine Bool.eq_false_iff.2 fun hzero => ?_
  have hzero : isZero t = true := hzero
  rw [if_pos hzero] at h
  cases h

/-- An expression without variables has a value, so that it would be evaluated. -/
theorem constant_of_evaluate {t : Tree α} (h : evaluate t = none) {e : Expr α}
    (he : t.toExpr = .ok e) (hvariable : t.hasVariable = false) : ∃ a, t = .num a := by
  have hnames : e.leafNames = [] := by
    rw [← Expr.leafNames_toTree, Expr.toTree_of_toExpr he]
    simpa [Tree.hasVariable] using hvariable
  have heval : e.eval [] = .ok (e.value (Bindings.assign [])) :=
    Expr.eval_eq_ok fun x hx => by rw [hnames] at hx; cases hx
  cases t with
  | num a => exact ⟨a, rfl⟩
  | var x => simp [Tree.hasVariable, Tree.leafNames] at hvariable
  | node op ts =>
    -- a tree of an expression has arithmetic at its root, unless it is a leaf
    have harithmetic : op.isArithmetic = true := by
      have htree := Expr.toTree_of_toExpr he
      cases e with
      | num a => rw [Expr.toTree] at htree; cases htree
      | var x => rw [Expr.toTree] at htree; cases htree
      | nary op' e es => rw [Expr.toTree] at htree; cases htree; rfl
      | func f e => rw [Expr.toTree] at htree; cases htree; rfl
    rw [evaluate, if_pos harithmetic, he] at h
    simp only [heval] at h
    cases h

omit [Scalar α] in
/-- No operand is of an operator that would be inlined at its place. -/
theorem not_isInlined_of_flatten {op : NaryOp} {t : Tree α} {ts : List (Tree α)}
    (h : flatten (.node (.nary op) (t :: ts)) = none) :
    isInlined (inlinedFirst? op) t = false ∧
      ∀ u ∈ ts, isInlined (inlinedLater? op) u = false := by
  have hnone : (isInlined (inlinedFirst? op) t || ts.any (isInlined (inlinedLater? op))) = false :=
    Bool.eq_false_iff.2 fun hinlined => by
      rw [flatten, if_pos hinlined] at h
      cases h
  rw [Bool.or_eq_false_iff, List.any_eq_false] at hnone
  exact ⟨hnone.1, fun u hu => Bool.eq_false_iff.2 (hnone.2 u hu)⟩

/-- Among three operands or more there is one constant at most, and one at most among the exponents
of a power. -/
theorem constantCount_of_foldConstants {op : NaryOp} {t : Tree α} {ts : List (Tree α)}
    (h : foldConstants (.node (.nary op) (t :: ts)) = none) :
    (op ≠ .pow → 3 ≤ (t :: ts).length → constantCount (t :: ts) ≤ 1) ∧
      (op = .pow → constantCount ts ≤ 1) := by
  unfold foldConstants at h
  dsimp only at h
  constructor
  · intro hop hlength
    -- with two constants to gather the rule would have applied
    by_contra hcount
    rw [if_pos ⟨Nat.le_of_succ_le_succ hlength, Nat.lt_of_not_le hcount⟩] at h
    cases op with
    | add | sub | mul | div => cases h
    | pow => exact hop rfl
  · rintro rfl
    by_contra hcount
    have hcount : 2 ≤ constantCount ts := Nat.lt_of_not_le hcount
    have hlength : 2 ≤ ts.length := hcount.trans List.countP_le_length
    have hcount' : 2 ≤ constantCount (t :: ts) := by
      rw [constantCount_cons]
      exact hcount.trans (Nat.le_add_right _ _)
    rw [if_pos ⟨hlength, hcount'⟩] at h
    simp only [if_pos hcount] at h
    cases h

/-! ## Like terms and factors -/

theorem coefficients_cons (x : String) (t : Tree α) (ts : List (Tree α)) :
    coefficients x (t :: ts) = (coefficient? x t).toList ++ coefficients x ts := by
  rw [coefficients, List.filterMap_cons]
  cases coefficient? x t <;> rfl

/-- A linear term has a coefficient for its own variable and for no other. -/
theorem coefficient?_of_linearTerm? {t : Tree α} {x : String} {c : α}
    (h : linearTerm? t = some (x, c)) (y : String) :
    coefficient? y t = if x = y then some c else none := by
  rw [coefficient?, h]

theorem coefficient?_eq_none {t : Tree α} (h : linearTerm? t = none) (y : String) :
    coefficient? y t = none := by
  rw [coefficient?, h]

/-- With no like terms among the later ones, a term adds no more than itself. -/
theorem length_coefficients_cons {t : Tree α} {ts : List (Tree α)}
    (h : ∀ x c, linearTerm? t = some (x, c) → coefficients x ts = [])
    (hts : ∀ x, (coefficients x ts).length ≤ 1) (x : String) :
    (coefficients x (t :: ts)).length ≤ 1 := by
  rw [coefficients_cons]
  cases hlinear : linearTerm? t with
  | none =>
    rw [coefficient?_eq_none hlinear]
    exact hts x
  | some p =>
    obtain ⟨y, c⟩ := p
    rw [coefficient?_of_linearTerm? hlinear]
    by_cases hxy : y = x
    · subst hxy
      rw [if_pos rfl, h y c hlinear]
      exact le_rfl
    · rw [if_neg hxy]
      exact hts x

/-- To take out the terms in a variable leaves fewer, if there are any. -/
theorem length_withoutTerms_lt {x : String} {ts : List (Tree α)} (h : coefficients x ts ≠ []) :
    (withoutTerms x ts).length < ts.length := by
  have hlength := (totals_withoutTerms x ts).1
  have hpos := List.length_pos_iff.2 h
  omega

/-- If merging leaves as many terms, no two have a variable in common. -/
theorem terms_of_mergeTerms {ts : List (Tree α)} (h : ¬(mergeTerms ts).length < ts.length) :
    ∀ x, (coefficients x ts).length ≤ 1 := by
  fun_induction mergeTerms ts with
  | case1 => exact fun _ => Nat.zero_le _
  | case2 t ts hlinear ih =>
    refine length_coefficients_cons (fun x c h => ?_) (ih fun hlt => h (Nat.succ_lt_succ hlt))
    rw [hlinear] at h
    cases h
  | case3 t ts x c hlinear hnil ih =>
    refine length_coefficients_cons (fun y d hy => ?_) (ih fun hlt => h (Nat.succ_lt_succ hlt))
    rw [hlinear] at hy
    cases hy
    exact hnil
  | case4 t ts x c hlinear hcs ih =>
    have hmerged := (totals_mergeTerms (withoutTerms x ts)).1
    have hless := length_withoutTerms_lt hcs
    exact absurd (Nat.succ_lt_succ (lt_of_le_of_lt hmerged hless)) h

/-- The same of subtrahends, as the parts are the merged terms in another order. -/
theorem terms_of_splitTerms {ts : List (Tree α)}
    (h : ¬(splitTerms ts).1.length + (splitTerms ts).2.length < ts.length) :
    ∀ x, (coefficients x ts).length ≤ 1 := by
  rw [← List.length_append, ← (mergeTerms_perm ts).length_eq] at h
  exact terms_of_mergeTerms h

/-- The minuend counts among them. -/
theorem terms_of_mergeDifference {t : Tree α} {ts : List (Tree α)}
    (h : ¬(mergeDifference t ts).length < (t :: ts).length) :
    ∀ x, (coefficients x (t :: ts)).length ≤ 1 := by
  rw [mergeDifference, List.length_cons, List.length_cons, List.length_append] at h
  have hsplit := (totals_splitTerms (reduceMinuend t ts).2).1
  -- the minuend takes nothing in, and then no subtrahends are merged
  have hreduced : (reduceMinuend t ts).2 = ts ∧
      ∀ x c, linearTerm? t = some (x, c) → coefficients x ts = [] := by
    revert hsplit h
    fun_cases reduceMinuend t ts with
    | case1 hlinear =>
      intro _ _
      refine ⟨rfl, fun x c h => ?_⟩
      rw [hlinear] at h
      cases h
    | case2 x c hlinear hnil =>
      intro _ _
      refine ⟨rfl, fun y d h => ?_⟩
      rw [hlinear] at h
      cases h
      exact hnil
    | case3 x c hlinear hcs =>
      intro h hsplit
      have hless := length_withoutTerms_lt hcs
      dsimp only at h hsplit
      omega
  rw [hreduced.1] at h
  exact length_coefficients_cons hreduced.2 (terms_of_splitTerms fun hlt => h (by omega))

/-- If merging leaves as many factors, no variable is a factor twice. -/
theorem factors_of_mergeFactors {ts : List (Tree α)} (h : ¬(mergeFactors ts).length < ts.length) :
    ∀ x, ts.countP (isVariable x) ≤ 1 := by
  fun_induction mergeFactors ts with
  | case1 => exact fun _ => Nat.zero_le _
  | case2 y ts hcount ih =>
    intro x
    by_cases hxy : x = y
    · subst hxy
      have hvar : isVariable x (.var x : Tree α) = true := beq_self_eq_true x
      rw [List.countP_cons_of_pos hvar, hcount]
    · rw [List.countP_cons_of_neg fun hvar =>
        hxy (Tree.var.inj (eq_var_of_isVariable hvar)).symm]
      exact ih (fun hlt => h (Nat.succ_lt_succ hlt)) x
  | case3 y ts n hcount ih =>
    -- the factors that are merged become one, so the list would be shorter
    have hwithout := (totals_withoutVariable y ts).1
    have hmerged := (totals_mergeFactors (withoutVariable y ts)).1
    rw [List.length_cons, List.length_cons] at h
    omega
  | case4 t ts hvar ih =>
    intro x
    rw [List.countP_cons_of_neg fun h => hvar x (eq_var_of_isVariable h)]
    exact ih (fun hlt => h (Nat.succ_lt_succ hlt)) x

/-- Operands to which no rule applies are normal. -/
theorem normalOperands_of_settled {op : NaryOp} {ts : List (Tree α)}
    (h : (Tree.node (.nary op) ts).Settled) : NormalOperands op ts := by
  have hnone := settled_iff.1 h
  simp only [rewrites, List.forall_mem_cons] at hnone
  obtain ⟨hremove, hsplice, hpower, hbase, hdividend, hfactor, -, hflatten, hfold, hadd, hsub, hmul,
    -⟩ := hnone
  have htwo := two_of_spliceUp hsplice
  obtain ⟨t, us, rfl⟩ := List.exists_cons_of_length_pos (Nat.lt_of_lt_of_le Nat.two_pos htwo)
  obtain ⟨hneutral, hneutral'⟩ := not_isNear_of_removeNeutral hremove
  obtain ⟨hinlined, hinlined'⟩ := not_isInlined_of_flatten hflatten
  obtain ⟨hfolded, hfolded'⟩ := constantCount_of_foldConstants hfold
  have hhead : ∀ {Q : Tree α → Prop}, Q t → ∀ u ∈ (t :: us).head?, Q u := by
    rintro Q hQ u ⟨⟩
    exact hQ
  -- each condition is what one of the rules would have removed
  constructor
  case two => exact htwo
  case neutral => exact hneutral
  case folded => exact hfolded
  case folded_exponents => exact hfolded'
  case neutral_first =>
    rintro (rfl | rfl) <;> exact hhead (hneutral' rfl)
  case factor =>
    rintro rfl
    exact not_isNear_of_any hfactor
  case exponent =>
    rintro rfl
    exact not_isNear_of_any hpower
  case first =>
    rintro (rfl | rfl)
    · exact hhead (not_isNear_of_first hdividend)
    · exact hhead (not_isNear_of_first hbase)
  case flat =>
    rintro (rfl | rfl) <;> exact List.forall_mem_cons.2 ⟨hinlined, hinlined'⟩
  case flat_subtrahend =>
    rintro rfl
    exact hinlined'
  case flat_base =>
    rintro rfl
    exact hhead hinlined
  case terms =>
    rintro (rfl | rfl)
    · refine terms_of_mergeTerms fun hless => ?_
      rw [combineTerms_eq_some.2 ⟨_, rfl, hless, rfl⟩] at hadd
      cases hadd
    · refine terms_of_mergeDifference fun hless => ?_
      rw [subtractTerms_eq_some.2 ⟨_, _, rfl, hless, rfl⟩] at hsub
      cases hsub
  case factors =>
    rintro rfl
    refine factors_of_mergeFactors fun hless => ?_
    rw [combineFactors_eq_some.2 ⟨_, rfl, hless, rfl⟩] at hmul
    cases hmul

/-- The normal form is put together from what it means for each rule not to apply. -/
theorem isNormal_of_settled {t : Tree α} (h : t.Settled) : t.IsNormal where
  operands := by
    rintro op ts rfl
    exact normalOperands_of_settled h
  constant e he hvariable := by
    have hevaluate : evaluate t = none := settled_iff.1 h evaluate (by simp [rewrites])
    exact constant_of_evaluate hevaluate he hvariable

end Simplify

/-- Every subtree of a simplified tree is in normal form. -/
theorem Tree.simplify_normal [LawfulScalar α] (t : Tree α) :
    ∀ s ∈ t.simplify.postOrder, s.IsNormal :=
  t.simplify_settled.mono fun _ => isNormal_of_settled

/-- Over doubles, `x * x` has the variable as a factor twice, and its simplified form is normal. -/
theorem Tree.simplify_normal_square :
    ¬(node (.nary .mul) [var "x", var "x"] : Tree Float).IsNormal ∧
      ∀ s ∈ (node (.nary .mul) [var "x", var "x"] : Tree Float).simplify.postOrder, s.IsNormal := by
  refine ⟨fun h => ?_, simplify_normal _⟩
  have htwice : [var "x", var "x"].countP (isVariable (α := Float) "x") ≤ 1 :=
    (h.operands .mul _ rfl).factors rfl "x"
  exact absurd htwice (by decide)

end Fluxion

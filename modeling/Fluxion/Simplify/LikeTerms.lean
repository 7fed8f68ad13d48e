import Fluxion.Simplify.Rule

/-!
# Like terms and like factors

A linear term is a variable, or a product of a variable and a constant. Linear terms of one variable
in a sum are merged into one, which stands where the first of them stood and whose coefficient is
the sum of theirs from left to right. In a difference the subtrahends with the variable of the
minuend go into the minuend, and of those left the ones with a variable in common are merged and
stand first. A variable that is a factor several times becomes a power.

Two linear terms weigh eight at least and the merged one seven at most, so every merge makes the
whole lighter by as much as the number of operands falls; the same holds of factors.
-/

namespace Fluxion.Simplify

variable {α : Type}

/-! ## Repeated factors -/

/-- The tree is the variable `x`. -/
def isVariable (x : String) : Tree α → Bool
  | .var y => y == x
  | _ => false

/-- The trees that are not the variable `x`. -/
def withoutVariable (x : String) (ts : List (Tree α)) : List (Tree α) :=
  ts.filter fun t => !isVariable x t

theorem length_withoutVariable_le (x : String) (ts : List (Tree α)) :
    (withoutVariable x ts).length ≤ ts.length :=
  List.length_filter_le _ _

/-- The factors of a product with each repeated variable as a power, where it first stood. -/
def mergeFactors [Scalar α] : List (Tree α) → List (Tree α)
  | [] => []
  | .var x :: ts =>
    match ts.countP (isVariable x) with
    | 0 => .var x :: mergeFactors ts
    | n + 1 =>
      .node (.nary .pow) [.var x, .num (Scalar.ofNat (n + 2))] ::
        mergeFactors (withoutVariable x ts)
  | t :: ts => t :: mergeFactors ts
termination_by ts => ts.length
decreasing_by
  · exact Nat.lt_succ_self _
  · exact Nat.lt_succ_of_le (length_withoutVariable_le _ _)
  · exact Nat.lt_succ_self _

theorem eq_var_of_isVariable {x : String} {t : Tree α} (h : isVariable x t = true) : t = .var x := by
  cases t with
  | num a => cases h
  | var y => rw [eq_of_beq h]
  | node op ts => cases h

/-- The trees are the occurrences of the variable and the others, in some order. -/
theorem withoutVariable_perm (x : String) (ts : List (Tree α)) :
    (List.replicate (ts.countP (isVariable x)) (Tree.var x) ++ withoutVariable x ts).Perm ts := by
  have hfilter : ts.filter (isVariable x) =
      List.replicate (ts.countP (isVariable x)) (.var x) :=
    List.eq_replicate_iff.2 ⟨List.countP_eq_length_filter.symm, fun t ht =>
      eq_var_of_isVariable (List.mem_filter.1 ht).2⟩
  rw [← hfilter]
  exact List.filter_append_perm (isVariable x) ts

/-- Occurrences of a variable left out take one variable and four of weight each. -/
theorem totals_withoutVariable (x : String) (ts : List (Tree α)) :
    (withoutVariable x ts).length + ts.countP (isVariable x) = ts.length ∧
      Tree.totalVariables (withoutVariable x ts) + ts.countP (isVariable x) =
        Tree.totalVariables ts ∧
      Tree.totalWeight (withoutVariable x ts) + 4 * ts.countP (isVariable x) =
        Tree.totalWeight ts := by
  have hperm := withoutVariable_perm x ts
  rw [← hperm.length_eq, ← Tree.totalVariables_perm hperm, ← Tree.totalWeight_perm hperm]
  simp only [List.length_append, List.length_replicate, Tree.totalVariables_append,
    Tree.totalVariables_replicate, Tree.variableCount_var, Tree.totalWeight_append,
    Tree.totalWeight_replicate, Tree.weight_var]
  omega

/-- Merging factors adds no variable, and takes at least one off the weight for each operand that
goes. -/
theorem totals_mergeFactors [Scalar α] (ts : List (Tree α)) :
    (mergeFactors ts).length ≤ ts.length ∧
      Tree.totalVariables (mergeFactors ts) ≤ Tree.totalVariables ts ∧
      Tree.totalWeight (mergeFactors ts) + ts.length ≤
        Tree.totalWeight ts + (mergeFactors ts).length := by
  fun_induction mergeFactors ts with
  | case1 => simp
  | case2 x ts h ih =>
    simp only [List.length_cons, Tree.totalVariables_cons, Tree.totalWeight_cons] at ih ⊢
    omega
  | case3 x ts n h ih =>
    have hts := totals_withoutVariable x ts
    simp only [List.length_cons, Tree.totalVariables_cons, Tree.totalWeight_cons,
      Tree.variableCount_node, Tree.weight_node, Tree.variableCount_var, Tree.weight_var,
      Tree.variableCount_num, Tree.weight_num, Tree.totalVariables_nil, Tree.totalWeight_nil]
      at ih ⊢
    omega
  | case4 t ts _ ih =>
    simp only [List.length_cons, Tree.totalVariables_cons, Tree.totalWeight_cons] at ih ⊢
    omega

/-! ## Linear terms -/

variable [Scalar α]

/-- The variable and the coefficient of a linear term. -/
def linearTerm? : Tree α → Option (String × α)
  | .var x => some (x, Scalar.ofNat 1)
  | .node (.nary .mul) [.var x, .num c] => some (x, c)
  | .node (.nary .mul) [.num c, .var x] => some (x, c)
  | _ => none

/-- The coefficient of a linear term in the variable `x`. -/
def coefficient? (x : String) (t : Tree α) : Option α :=
  match linearTerm? t with
  | some (y, c) => if y = x then some c else none
  | none => none

/-- The coefficients of the linear terms in `x`, in order. -/
def coefficients (x : String) (ts : List (Tree α)) : List α := ts.filterMap (coefficient? x)

/-- The trees that are no linear terms in `x`. -/
def withoutTerms (x : String) (ts : List (Tree α)) : List (Tree α) :=
  ts.filter fun t => (coefficient? x t).isNone

/-- The product of a variable and a coefficient: a constant if the coefficient is near zero, the
variable alone if it is near one. -/
def normalTerm (x : String) (c : α) : Tree α :=
  if Scalar.isZero c then .num (Scalar.ofNat 0)
  else if Scalar.isOne c then .var x
  else .node (.nary .mul) [.var x, .num c]

theorem length_withoutTerms_le (x : String) (ts : List (Tree α)) :
    (withoutTerms x ts).length ≤ ts.length :=
  List.length_filter_le _ _

/-- The terms of a sum with the linear terms of each variable merged. -/
def mergeTerms : List (Tree α) → List (Tree α)
  | [] => []
  | t :: ts =>
    match linearTerm? t with
    | none => t :: mergeTerms ts
    | some (x, c) =>
      match coefficients x ts with
      | [] => t :: mergeTerms ts
      | cs => normalTerm x (cs.foldl Scalar.add c) :: mergeTerms (withoutTerms x ts)
termination_by ts => ts.length
decreasing_by
  · exact Nat.lt_succ_self _
  · exact Nat.lt_succ_self _
  · exact Nat.lt_succ_of_le (length_withoutTerms_le _ _)

/-- The merged terms of the variables with several linear terms, in order of first appearance, and
the trees that are in none of them. -/
def splitTerms : List (Tree α) → List (Tree α) × List (Tree α)
  | [] => ([], [])
  | t :: ts =>
    match linearTerm? t with
    | none => ((splitTerms ts).1, t :: (splitTerms ts).2)
    | some (x, c) =>
      match coefficients x ts with
      | [] => ((splitTerms ts).1, t :: (splitTerms ts).2)
      | cs =>
        (normalTerm x (cs.foldl Scalar.add c) :: (splitTerms (withoutTerms x ts)).1,
          (splitTerms (withoutTerms x ts)).2)
termination_by ts => ts.length
decreasing_by
  · exact Nat.lt_succ_self _
  · exact Nat.lt_succ_self _
  · exact Nat.lt_succ_of_le (length_withoutTerms_le _ _)

/-- The minuend with the subtrahends that have its variable taken in, and the other subtrahends. -/
def reduceMinuend (minuend : Tree α) (subtrahends : List (Tree α)) : Tree α × List (Tree α) :=
  match linearTerm? minuend with
  | none => (minuend, subtrahends)
  | some (x, c) =>
    match coefficients x subtrahends with
    | [] => (minuend, subtrahends)
    | cs => (normalTerm x (cs.foldl Scalar.sub c), withoutTerms x subtrahends)

/-- The operands of a difference with its linear terms merged. -/
def mergeDifference (minuend : Tree α) (subtrahends : List (Tree α)) : List (Tree α) :=
  let reduced := reduceMinuend minuend subtrahends
  let parts := splitTerms reduced.2
  reduced.1 :: (parts.1 ++ parts.2)

/-- A linear term has one variable, and weighs at least as much as that alone. -/
theorem totals_of_linearTerm? {t : Tree α} {x : String} {c : α} (h : linearTerm? t = some (x, c)) :
    t.variableCount = 1 ∧ 4 ≤ t.weight := by
  unfold linearTerm? at h
  split at h <;> simp_all

/-- A merged term has at most one variable, and weighs less than two linear terms do. -/
theorem totals_normalTerm (x : String) (c : α) :
    (normalTerm x c).variableCount ≤ 1 ∧ (normalTerm x c).weight ≤ 7 := by
  unfold normalTerm
  split
  · simp
  split
  · simp
  · simp

/-- Linear terms left out take one variable and at least four of weight each. -/
theorem totals_withoutTerms (x : String) (ts : List (Tree α)) :
    (withoutTerms x ts).length + (coefficients x ts).length = ts.length ∧
      Tree.totalVariables (withoutTerms x ts) + (coefficients x ts).length =
        Tree.totalVariables ts ∧
      Tree.totalWeight (withoutTerms x ts) + 4 * (coefficients x ts).length ≤
        Tree.totalWeight ts := by
  induction ts with
  | nil => simp [withoutTerms, coefficients]
  | cons t ts ih =>
    simp only [withoutTerms, coefficients] at ih ⊢
    cases h : coefficient? x t with
    | none =>
      simp only [List.filter_cons, h, Option.isNone_none, if_true, List.filterMap_cons,
        List.length_cons, Tree.totalVariables_cons, Tree.totalWeight_cons]
      omega
    | some c =>
      -- a term that is taken out has one variable and weighs at least four
      have ht : t.variableCount = 1 ∧ 4 ≤ t.weight := by
        unfold coefficient? at h
        split at h
        · next hlinear => exact totals_of_linearTerm? hlinear
        · exact nomatch h
      simp only [List.filter_cons, h, Option.isNone_some, Bool.false_eq_true, if_false,
        List.filterMap_cons, List.length_cons, Tree.totalVariables_cons, Tree.totalWeight_cons]
      omega

/-- Merging terms adds no variable, and takes at least one off the weight for each operand that
goes. -/
theorem totals_mergeTerms (ts : List (Tree α)) :
    (mergeTerms ts).length ≤ ts.length ∧
      Tree.totalVariables (mergeTerms ts) ≤ Tree.totalVariables ts ∧
      Tree.totalWeight (mergeTerms ts) + ts.length ≤
        Tree.totalWeight ts + (mergeTerms ts).length := by
  fun_induction mergeTerms ts with
  | case1 => simp
  | case2 t ts h ih =>
    simp only [List.length_cons, Tree.totalVariables_cons, Tree.totalWeight_cons]
    omega
  | case3 t ts x c hlinear hnil ih =>
    simp only [List.length_cons, Tree.totalVariables_cons, Tree.totalWeight_cons]
    omega
  | case4 t ts x c hlinear hcs ih =>
    have ht := totals_of_linearTerm? hlinear
    have hts := totals_withoutTerms x ts
    have hterm := totals_normalTerm x ((coefficients x ts).foldl Scalar.add c)
    have hlength : 1 ≤ (coefficients x ts).length := List.length_pos_iff.2 hcs
    simp only [List.length_cons, Tree.totalVariables_cons, Tree.totalWeight_cons]
    omega

/-- Merging puts the same terms in place that splitting puts apart. -/
theorem mergeTerms_perm (ts : List (Tree α)) :
    (mergeTerms ts).Perm ((splitTerms ts).1 ++ (splitTerms ts).2) := by
  fun_induction mergeTerms ts with
  | case1 =>
    rw [splitTerms]
    exact .refl _
  | case2 t ts h ih =>
    rw [splitTerms, h]
    exact (ih.cons t).trans List.perm_middle.symm
  | case3 t ts x c hlinear hnil ih =>
    rw [splitTerms, hlinear]
    dsimp only
    rw [hnil]
    exact (ih.cons t).trans List.perm_middle.symm
  | case4 t ts x c hlinear hcs ih =>
    rw [splitTerms, hlinear]
    dsimp only
    split
    -- two or more like terms become one, which stands for them in the first part
    · next hnil => exact absurd hnil hcs
    · exact ih.cons _

/-- The two parts together add no variable, and take at least one off the weight for each tree that
goes. -/
theorem totals_splitTerms (ts : List (Tree α)) :
    (splitTerms ts).1.length + (splitTerms ts).2.length ≤ ts.length ∧
      Tree.totalVariables (splitTerms ts).1 + Tree.totalVariables (splitTerms ts).2 ≤
        Tree.totalVariables ts ∧
      Tree.totalWeight (splitTerms ts).1 + Tree.totalWeight (splitTerms ts).2 + ts.length ≤
        Tree.totalWeight ts + (splitTerms ts).1.length + (splitTerms ts).2.length := by
  have hperm := mergeTerms_perm ts
  rw [Nat.add_assoc (Tree.totalWeight ts), ← Tree.totalWeight_append, ← Tree.totalVariables_append,
    ← List.length_append, ← hperm.length_eq, ← Tree.totalWeight_perm hperm,
    ← Tree.totalVariables_perm hperm]
  exact totals_mergeTerms ts

/-- The minuend may get heavier, but by less than the subtrahends that it takes in have weighed. -/
theorem totals_reduceMinuend (t : Tree α) (ts : List (Tree α)) :
    (reduceMinuend t ts).2.length ≤ ts.length ∧
      (reduceMinuend t ts).1.variableCount + Tree.totalVariables (reduceMinuend t ts).2 ≤
        t.variableCount + Tree.totalVariables ts ∧
      (reduceMinuend t ts).1.weight + Tree.totalWeight (reduceMinuend t ts).2 + ts.length ≤
        t.weight + Tree.totalWeight ts + (reduceMinuend t ts).2.length := by
  unfold reduceMinuend
  split
  · simp
  · next x c hlinear =>
    split
    · simp
    · next hcs =>
      have ht := totals_of_linearTerm? hlinear
      have hts := totals_withoutTerms x ts
      have hterm := totals_normalTerm x ((coefficients x ts).foldl Scalar.sub c)
      have hlength : 1 ≤ (coefficients x ts).length := List.length_pos_iff.2 hcs
      dsimp only
      omega

/-- A difference that has lost operands has lost weight. -/
theorem totals_mergeDifference (t : Tree α) (ts : List (Tree α)) :
    Tree.totalVariables (mergeDifference t ts) ≤ t.variableCount + Tree.totalVariables ts ∧
      Tree.totalWeight (mergeDifference t ts) + ts.length + 1 ≤
        t.weight + Tree.totalWeight ts + (mergeDifference t ts).length := by
  have hreduced := totals_reduceMinuend t ts
  have hparts := totals_splitTerms (reduceMinuend t ts).2
  simp only [mergeDifference, Tree.totalVariables_cons, Tree.totalWeight_cons,
    Tree.totalVariables_append, Tree.totalWeight_append, List.length_cons, List.length_append]
  omega

/-! ## The rules -/

/-- An operator with the operands in `merged`, if those are fewer than `ts`. -/
def fewerOperands (op : NaryOp) (merged ts : List (Tree α)) : Option (Tree α) :=
  if merged.length < ts.length then some (.node (.nary op) merged) else none

/-- Merges the linear terms of a sum. -/
def combineTerms : Tree α → Option (Tree α)
  | .node (.nary .add) ts => fewerOperands .add (mergeTerms ts) ts
  | _ => none

/-- Merges the linear terms of a difference. -/
def subtractTerms : Tree α → Option (Tree α)
  | .node (.nary .sub) (t :: ts) => fewerOperands .sub (mergeDifference t ts) (t :: ts)
  | _ => none

/-- Merges the repeated factors of a product. -/
def combineFactors : Tree α → Option (Tree α)
  | .node (.nary .mul) ts => fewerOperands .mul (mergeFactors ts) ts
  | _ => none

/-- The rule of these for the operator at hand. -/
def collections : Rule α :=
  Rule.first [Rule.named .combineLikeTerms combineTerms,
    Rule.named .combineLikeTerms subtractTerms,
    Rule.named .combineLikeFactors combineFactors]

omit [Scalar α] in
/-- A collection counts as one only if it leaves fewer operands. -/
theorem fewerOperands_eq_some {op : NaryOp} {merged ts : List (Tree α)} {t : Tree α} :
    fewerOperands op merged ts = some t ↔
      merged.length < ts.length ∧ t = .node (.nary op) merged := by
  rw [fewerOperands, Option.ite_none_right_eq_some, Option.some.injEq]
  exact and_congr_right fun _ => eq_comm

/-- The rule is for sums whose merged terms are fewer. -/
theorem combineTerms_eq_some {t t' : Tree α} :
    combineTerms t = some t' ↔ ∃ ts, t = .node (.nary .add) ts ∧
      (mergeTerms ts).length < ts.length ∧ t' = .node (.nary .add) (mergeTerms ts) := by
  constructor
  · intro h
    unfold combineTerms at h
    split at h
    · exact ⟨_, rfl, fewerOperands_eq_some.1 h⟩
    · cases h
  · rintro ⟨ts, rfl, h⟩
    exact fewerOperands_eq_some.2 h

/-- The rule is for differences whose subtrahends, merged with the minuend and with one another, are
fewer. -/
theorem subtractTerms_eq_some {t t' : Tree α} :
    subtractTerms t = some t' ↔ ∃ first others, t = .node (.nary .sub) (first :: others) ∧
      (mergeDifference first others).length < (first :: others).length ∧
      t' = .node (.nary .sub) (mergeDifference first others) := by
  constructor
  · intro h
    unfold subtractTerms at h
    split at h
    · exact ⟨_, _, rfl, fewerOperands_eq_some.1 h⟩
    · cases h
  · rintro ⟨first, others, rfl, h⟩
    exact fewerOperands_eq_some.2 h

/-- The rule is for products whose merged factors are fewer. -/
theorem combineFactors_eq_some {t t' : Tree α} :
    combineFactors t = some t' ↔ ∃ ts, t = .node (.nary .mul) ts ∧
      (mergeFactors ts).length < ts.length ∧ t' = .node (.nary .mul) (mergeFactors ts) := by
  constructor
  · intro h
    unfold combineFactors at h
    split at h
    · exact ⟨_, rfl, fewerOperands_eq_some.1 h⟩
    · cases h
  · rintro ⟨ts, rfl, h⟩
    exact fewerOperands_eq_some.2 h

theorem combineTerms_shrinking : Shrinking (combineTerms (α := α)) := by
  intro t t' h
  obtain ⟨ts, rfl, hfewer, rfl⟩ := combineTerms_eq_some.1 h
  have hts := totals_mergeTerms ts
  exact Tree.node_lighter hts.2.1 (by omega)

/-- The rule applies only if it leaves fewer operands. -/
theorem subtractTerms_shrinking : Shrinking (subtractTerms (α := α)) := by
  intro t t' h
  obtain ⟨first, others, rfl, hfewer, rfl⟩ := subtractTerms_eq_some.1 h
  have hts := totals_mergeDifference first others
  apply Tree.node_lighter
  · simp only [Tree.totalVariables_cons]
    omega
  · simp only [List.length_cons] at hfewer
    simp only [Tree.totalWeight_cons]
    omega

theorem combineFactors_shrinking : Shrinking (combineFactors (α := α)) := by
  intro t t' h
  obtain ⟨ts, rfl, hfewer, rfl⟩ := combineFactors_eq_some.1 h
  have hts := totals_mergeFactors ts
  exact Tree.node_lighter hts.2.1 (by omega)

end Fluxion.Simplify

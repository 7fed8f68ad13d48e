import Fluxion.Proofs.Simplify.Keeps

/-!
# Like terms and like factors keep values

A linear term is the value of its variable times its coefficient, so that the terms left out for a
merged one come to what its coefficient has more. Factors that are one variable come to a power of
it with a whole exponent, whatever the sign of the variable.
-/

namespace Fluxion.Simplify

open Fluxion.Tree

variable {p : Point}

/-! ## Linear terms -/

/-- A linear term is worth its variable times its coefficient. -/
theorem value_linearTerm (ρ : String → ℝ) {t : Tree ℝ} {x : String} {c : ℝ}
    (h : linearTerm? t = some (x, c)) : t.value ρ = ρ x * c := by
  unfold linearTerm? at h
  split at h
  · cases h
    rw [value_var, Scalar.ofNat_real, Nat.cast_one, mul_one]
  · cases h
    rw [value_nary_cons, List.map_singleton, value_var, value_num]
    rfl
  · cases h
    rw [value_nary_cons, List.map_singleton, value_var, value_num]
    exact mul_comm c (ρ x)
  · cases h

/-- A merged term is worth its variable times its coefficient, if the coefficient is not just near
zero or one. -/
theorem value_normalTerm (ρ : String → ℝ) (x : String) {c : ℝ}
    (hexact : ∀ d ∈ normalTermTests c, d.Exact) : (normalTerm x c).value ρ = ρ x * c := by
  rw [normalTermTests, List.forall_mem_cons] at hexact
  unfold normalTerm
  split
  · next hzero =>
    have hc : c = ((0 : ℕ) : ℝ) := hexact.1 hzero
    rw [value_num, hc, Scalar.ofNat_real, Nat.cast_zero, mul_zero]
  split
  · next hzero hone =>
    rw [if_neg hzero] at hexact
    have hc : c = ((1 : ℕ) : ℝ) := hexact.2 _ (List.mem_singleton_self _) hone
    rw [value_var, hc, Nat.cast_one, mul_one]
  · rw [value_nary_cons, List.map_singleton, value_var, value_num]
    rfl

theorem value_of_coefficient? (ρ : String → ℝ) {t : Tree ℝ} {x : String} {c : ℝ}
    (h : coefficient? x t = some c) : t.value ρ = ρ x * c := by
  unfold coefficient? at h
  split at h
  · next y d hlinear =>
    rw [Option.ite_none_right_eq_some, Option.some.injEq] at h
    obtain ⟨rfl, rfl⟩ := h
    exact value_linearTerm ρ hlinear
  · cases h

/-- The terms in a variable come to the variable times their coefficients. -/
theorem sum_withoutTerms (ρ : String → ℝ) (x : String) (ts : List (Tree ℝ)) :
    (ts.map (value ρ)).sum =
      ρ x * (coefficients x ts).sum + ((withoutTerms x ts).map (value ρ)).sum := by
  induction ts with
  | nil => simp [coefficients, withoutTerms]
  | cons t ts ih =>
    rw [coefficients, withoutTerms] at ih ⊢
    rw [List.map_cons, List.sum_cons, ih]
    cases h : coefficient? x t with
    | none =>
      rw [List.filterMap_cons_none h, List.filter_cons_of_pos (by rw [h]; rfl), List.map_cons,
        List.sum_cons]
      ring
    | some c =>
      rw [List.filterMap_cons_some h, List.filter_cons_of_neg (by rw [h]; exact Bool.false_ne_true),
        List.sum_cons, value_of_coefficient? ρ h]
      ring

theorem foldl_coefficients_add (c : ℝ) (cs : List ℝ) : cs.foldl Scalar.add c = c + cs.sum :=
  NaryOp.foldl_add c cs

theorem foldl_coefficients_sub (c : ℝ) (cs : List ℝ) : cs.foldl Scalar.sub c = c - cs.sum :=
  NaryOp.foldl_sub c cs

/-! ## Sums -/

theorem sum_mergeTerms (ρ : String → ℝ) {ts : List (Tree ℝ)}
    (hexact : ∀ d ∈ mergeTermsTests ts, d.Exact) :
    ((mergeTerms ts).map (value ρ)).sum = (ts.map (value ρ)).sum := by
  fun_induction mergeTerms ts with
  | case1 => rfl
  | case2 t ts h ih =>
    simp only [mergeTermsTests, h] at hexact
    rw [List.map_cons, List.map_cons, List.sum_cons, List.sum_cons, ih hexact]
  | case3 t ts x c hlinear hnil ih =>
    simp only [mergeTermsTests, hlinear, hnil] at hexact
    rw [List.map_cons, List.map_cons, List.sum_cons, List.sum_cons, ih hexact]
  | case4 t ts x c hlinear hcs ih =>
    simp only [mergeTermsTests, hlinear, List.forall_mem_append] at hexact
    rw [List.map_cons, List.map_cons, List.sum_cons, List.sum_cons, ih hexact.2,
      value_normalTerm ρ x hexact.1, foldl_coefficients_add, value_linearTerm ρ hlinear,
      sum_withoutTerms ρ x ts]
    ring

theorem mergeTerms_ne_nil {ts : List (Tree ℝ)} (h : ts ≠ []) : mergeTerms ts ≠ [] := by
  fun_cases mergeTerms ts with
  | case1 => exact absurd rfl h
  | case2 | case3 | case4 => exact List.cons_ne_nil _ _

/-- Like terms of a sum are merged without a change of value. -/
theorem combineTerms_keeps {t t' : Tree ℝ} (hreg : t.Regular p)
    (hexact : ∀ d ∈ combineTermsTests t, d.Exact) (h : combineTerms t = some t') :
    t'.Regular p ∧ t'.value p.ρ = t.value p.ρ := by
  obtain ⟨ts, rfl, -, rfl⟩ := combineTerms_eq_some.1 h
  obtain ⟨hne, hts, -⟩ := Regular.nary_iff.1 hreg
  exact Regular.replace_all rfl (mergeTerms_ne_nil hne) (hereditary_regular.mergeTerms hts)
    (sum_mergeTerms p.ρ hexact)

/-! ## Differences -/

/-- The two parts have the sum of the merged terms, in another order. -/
theorem sum_splitTerms (ρ : String → ℝ) {ts : List (Tree ℝ)}
    (hexact : ∀ d ∈ mergeTermsTests ts, d.Exact) :
    ((splitTerms ts).1.map (value ρ)).sum + ((splitTerms ts).2.map (value ρ)).sum =
      (ts.map (value ρ)).sum := by
  rw [← List.sum_append, ← List.map_append, ← ((mergeTerms_perm ts).map (value ρ)).sum_eq]
  exact sum_mergeTerms ρ hexact

/-- What goes from the subtrahends goes from the minuend too. -/
theorem value_reduceMinuend (ρ : String → ℝ) {t : Tree ℝ} {ts : List (Tree ℝ)}
    (hexact : ∀ d ∈ reduceMinuendTests t ts, d.Exact) :
    (reduceMinuend t ts).1.value ρ - ((reduceMinuend t ts).2.map (value ρ)).sum =
      t.value ρ - (ts.map (value ρ)).sum := by
  fun_cases reduceMinuend t ts with
  | case1 h => rfl
  | case2 x c hlinear hnil => rfl
  | case3 x c hlinear hcs =>
    simp only [reduceMinuendTests, hlinear] at hexact
    rw [value_normalTerm ρ x hexact, foldl_coefficients_sub, value_linearTerm ρ hlinear,
      sum_withoutTerms ρ x ts]
    ring

/-- Like terms of a difference are merged without a change of value, with the minuend and among the
subtrahends. -/
theorem subtractTerms_keeps {t t' : Tree ℝ} (hreg : t.Regular p)
    (hexact : ∀ d ∈ subtractTermsTests t, d.Exact) (h : subtractTerms t = some t') :
    t'.Regular p ∧ t'.value p.ρ = t.value p.ρ := by
  obtain ⟨t, ts, rfl, -, rfl⟩ := subtractTerms_eq_some.1 h
  obtain ⟨-, hall, -⟩ := Regular.nary_iff.1 hreg
  obtain ⟨ht, hts⟩ := List.forall_mem_cons.1 hall
  rw [subtractTermsTests, List.forall_mem_append] at hexact
  -- first the minuend takes its terms from the subtrahends, then these are merged
  have hreg' : (node (.nary .sub) (mergeDifference t ts)).Regular p :=
    .nary (List.cons_ne_nil _ _) (hereditary_regular.mergeDifference ht hts) trivial
  refine ⟨hreg', ?_⟩
  have hsum := sum_splitTerms p.ρ hexact.2
  have hdifference := value_reduceMinuend p.ρ hexact.1
  calc (node (.nary .sub) (mergeDifference t ts)).value p.ρ
      = (reduceMinuend t ts).1.value p.ρ -
          (((splitTerms (reduceMinuend t ts).2).1 ++ (splitTerms (reduceMinuend t ts).2).2).map
            (value p.ρ)).sum := hreg'.value_nary
    _ = (reduceMinuend t ts).1.value p.ρ - ((reduceMinuend t ts).2.map (value p.ρ)).sum := by
        rw [List.map_append, List.sum_append, hsum]
    _ = t.value p.ρ - (ts.map (value p.ρ)).sum := hdifference
    _ = (node (.nary .sub) (t :: ts)).value p.ρ := hreg.value_nary.symm

/-! ## Repeated factors -/

/-- The factors that are the variable are worth a power of it. -/
theorem prod_withoutVariable (ρ : String → ℝ) (x : String) (ts : List (Tree ℝ)) :
    (ts.map (value ρ)).prod =
      ρ x ^ ts.countP (isVariable x) * ((withoutVariable x ts).map (value ρ)).prod := by
  rw [← ((withoutVariable_perm x ts).map (value ρ)).prod_eq, List.map_append, List.map_replicate,
    List.prod_append, List.prod_replicate, value_var]

/-- A whole exponent is that of repeated multiplication, also for a negative base. -/
theorem value_repeated (ρ : String → ℝ) (x : String) (n : ℕ) :
    (node (.nary .pow) [.var x, .num (Scalar.ofNat (n + 2))] : Tree ℝ).value ρ =
      ρ x ^ (n + 2) := by
  rw [value_nary_cons, List.map_singleton, value_var, value_num]
  exact Real.rpow_natCast (ρ x) (n + 2)

theorem prod_mergeFactors (ρ : String → ℝ) (ts : List (Tree ℝ)) :
    ((mergeFactors ts).map (value ρ)).prod = (ts.map (value ρ)).prod := by
  fun_induction mergeFactors ts with
  | case1 => rfl
  | case2 x ts h ih => rw [List.map_cons, List.map_cons, List.prod_cons, List.prod_cons, ih]
  | case3 x ts n h ih =>
    rw [List.map_cons, List.map_cons, List.prod_cons, List.prod_cons, ih, value_repeated, value_var,
      prod_withoutVariable ρ x ts, h, Nat.succ_eq_add_one]
    ring
  | case4 t ts _ ih => rw [List.map_cons, List.map_cons, List.prod_cons, List.prod_cons, ih]

theorem mergeFactors_ne_nil {ts : List (Tree ℝ)} (h : ts ≠ []) : mergeFactors ts ≠ [] := by
  fun_cases mergeFactors ts with
  | case1 => exact absurd rfl h
  | case2 | case3 | case4 => exact List.cons_ne_nil _ _

/-- Like factors of a product are merged without a change of value. -/
theorem combineFactors_keeps {t t' : Tree ℝ} (hreg : t.Regular p) (h : combineFactors t = some t') :
    t'.Regular p ∧ t'.value p.ρ = t.value p.ρ := by
  obtain ⟨ts, rfl, -, rfl⟩ := combineFactors_eq_some.1 h
  obtain ⟨hne, hts, -⟩ := Regular.nary_iff.1 hreg
  exact Regular.replace_all rfl (mergeFactors_ne_nil hne) (hereditary_regular.mergeFactors hts)
    (prod_mergeFactors p.ρ ts)

end Fluxion.Simplify

import Fluxion.Proofs.Simplify.Names
import Mathlib.Algebra.Order.BigOperators.Group.List
import Mathlib.Data.ENat.Lattice

/-!
# Degrees

The degree of a tree in a variable, as far as it is a polynomial in it: infinite for a divisor or a
function with the variable in it, and for an exponent that is not a constant whole number of at
least one. The degree is zero exactly where the variable does not occur. Simplification at the root
does not raise it, as long as it is below 2⁵³, so that exponents that are gathered are multiplied
exactly (`Tree.degree_root_le`).
-/

namespace Fluxion

variable {α : Type} [Scalar α]

namespace Tree

open Classical in
/-- What an exponent multiplies a degree by: itself, if it is a whole number of at least one. -/
noncomputable def exponentDegree (t : Tree α) : ℕ∞ :=
  if h : ∃ n : ℕ, 1 ≤ n ∧ t = num (Scalar.ofNat n) then (Nat.find h : ℕ∞) else ⊤

/-- A whole number as an exponent counts at most what it is, over any scalars. -/
theorem exponentDegree_num_le {n : ℕ} (hn : 1 ≤ n) :
    (num (Scalar.ofNat n) : Tree α).exponentDegree ≤ n := by
  classical
  have h : ∃ m : ℕ, 1 ≤ m ∧ (num (Scalar.ofNat n) : Tree α) = num (Scalar.ofNat m) := ⟨n, hn, rfl⟩
  rw [exponentDegree, dif_pos h]
  exact_mod_cast Nat.find_le (h := h) ⟨hn, rfl⟩

/-- An exponent that counts at all is a constant whole number of at least one. -/
theorem exists_of_exponentDegree_ne_top {t : Tree α} (h : t.exponentDegree ≠ ⊤) :
    ∃ n : ℕ, 1 ≤ n ∧ t = num (Scalar.ofNat n) ∧ t.exponentDegree = n := by
  classical
  unfold exponentDegree at h ⊢
  split at h
  · next hex => exact ⟨Nat.find hex, (Nat.find_spec hex).1, (Nat.find_spec hex).2, dif_pos hex⟩
  · exact absurd rfl h

theorem one_le_exponentDegree (t : Tree α) : 1 ≤ t.exponentDegree := by
  by_cases h : t.exponentDegree = ⊤
  · rw [h]
    exact le_top
  · obtain ⟨n, hn, -, heq⟩ := exists_of_exponentDegree_ne_top h
    rw [heq]
    exact_mod_cast hn

end Tree

/-- The degree that an operator makes of those of its operands and of its exponents. -/
noncomputable def Operator.degree : Operator → List ℕ∞ → List ℕ∞ → ℕ∞
  | nary .add, ds, _ | nary .sub, ds, _ => ds.foldr max 0
  | nary .mul, ds, _ => ds.sum
  | nary .div, d :: ds, _ => if ∀ x ∈ ds, x = 0 then d else ⊤
  | nary .pow, d :: _, ms => max 1 d * ms.prod
  | _, _, _ => ⊤

/-- The degree of a tree in a variable. -/
noncomputable def Tree.degree (v : String) : Tree α → ℕ∞
  | num _ => 0
  | var x => if x = v then 1 else 0
  | node op ts =>
    if v ∈ (node op ts).leafNames then
      op.degree (ts.map (degree v)) (ts.tail.map exponentDegree)
    else 0

namespace Tree

variable {v : String}

@[simp] theorem degree_num (a : α) : (num a).degree v = 0 := by rw [degree]

theorem degree_var (x : String) : (var x : Tree α).degree v = if x = v then 1 else 0 := by
  rw [degree]

/-- Without the variable the degree is zero, whatever the tree is. -/
theorem degree_of_not_mem {t : Tree α} (h : v ∉ t.leafNames) : t.degree v = 0 := by
  cases t with
  | num a => rw [degree]
  | var x =>
    rw [degree, if_neg]
    rintro rfl
    exact h (by rw [leafNames]; exact List.mem_singleton_self x)
  | node op ts => rw [degree, if_neg h]

/-- With the variable the degree is that of the operator, of the degrees of the operands. -/
theorem degree_node_of_mem {op : Operator} {ts : List (Tree α)} (h : v ∈ (node op ts).leafNames) :
    (node op ts).degree v = op.degree (ts.map (degree v)) (ts.tail.map exponentDegree) := by
  rw [degree, if_pos h]

omit [Scalar α] in
/-- The maximum of some degrees is bounded if all of them are. -/
theorem foldr_max_le_iff {ds : List ℕ∞} {d : ℕ∞} : ds.foldr max 0 ≤ d ↔ ∀ x ∈ ds, x ≤ d := by
  induction ds with
  | nil => simp
  | cons x ds ih => rw [List.foldr_cons, max_le_iff, ih, List.forall_mem_cons]

theorem one_le_of_mem_map (ts : List (Tree α)) : ∀ m ∈ ts.map exponentDegree, 1 ≤ m := by
  intro m hm
  obtain ⟨t, -, rfl⟩ := List.mem_map.1 hm
  exact one_le_exponentDegree t

theorem one_le_prod_exponentDegree (ts : List (Tree α)) : 1 ≤ (ts.map exponentDegree).prod :=
  List.one_le_prod_of_one_le (one_le_of_mem_map ts)

/-- No exponent counts more than all together, as none counts less than one. -/
theorem exponentDegree_le_prod {t : Tree α} {ts : List (Tree α)} (h : t ∈ ts) :
    t.exponentDegree ≤ (ts.map exponentDegree).prod := by
  have hsublist : [t.exponentDegree].Sublist (ts.map exponentDegree) :=
    List.singleton_sublist.2 (List.mem_map_of_mem h)
  have hle := hsublist.prod_le_prod' (one_le_of_mem_map ts)
  rwa [List.prod_singleton] at hle

/-- Where the variable occurs the degree is at least one. -/
theorem one_le_degree {t : Tree α} (h : v ∈ t.leafNames) : 1 ≤ t.degree v := by
  induction t using operands_induction with
  | num a => rw [leafNames] at h; cases h
  | var x =>
    rw [leafNames, List.mem_singleton] at h
    rw [degree, if_pos h.symm]
  | node op ts ih =>
    rw [degree_node_of_mem h]
    obtain ⟨t, ht, hmem⟩ := mem_leafNames_node.1 h
    have hone := ih t ht hmem
    have hdegree : t.degree v ∈ ts.map (degree v) := List.mem_map_of_mem ht
    cases op with
    | nary op =>
      cases op with
      | add | sub => exact hone.trans (foldr_max_le_iff.1 le_rfl _ hdegree)
      | mul => exact hone.trans (List.single_le_sum (fun _ _ => zero_le) _ hdegree)
      | div =>
        obtain ⟨u, us, rfl⟩ := List.exists_cons_of_ne_nil (List.ne_nil_of_mem ht)
        rw [List.map_cons, Operator.degree]
        split
        · next hzero =>
          -- the divisors are of degree zero here, so the name is in the dividend
          rcases List.mem_cons.1 ht with rfl | ht
          · exact hone
          · rw [hzero _ (List.mem_map_of_mem ht)] at hone
            exact absurd hone (by simp)
        · exact le_top
      | pow =>
        obtain ⟨u, us, rfl⟩ := List.exists_cons_of_ne_nil (List.ne_nil_of_mem ht)
        rw [List.map_cons, Operator.degree]
        exact one_le_mul (le_max_left _ _) (one_le_prod_exponentDegree us)
    | _ => exact le_top

/-- The degree is zero exactly where the variable does not occur. -/
theorem degree_eq_zero_iff {t : Tree α} : t.degree v = 0 ↔ v ∉ t.leafNames := by
  refine ⟨fun h hmem => ?_, degree_of_not_mem⟩
  have hone := one_le_degree hmem
  rw [h] at hone
  exact absurd hone (by simp)

/-! ## Degrees of arithmetic -/

/-- If the variable is not in a node it is in none of the operands. -/
theorem not_mem_leafNames_of_node {op : Operator} {ts : List (Tree α)}
    (h : v ∉ (node op ts).leafNames) : ∀ t ∈ ts, t.degree v = 0 :=
  fun t ht => degree_of_not_mem fun hmem => h (mem_leafNames_node.2 ⟨t, ht, hmem⟩)

/-- The degree of a sum or a difference is that of its highest operand. -/
theorem degree_additive_le_iff {op : NaryOp} (hop : op = .add ∨ op = .sub) {ts : List (Tree α)}
    {d : ℕ∞} : (node (.nary op) ts).degree v ≤ d ↔ ∀ t ∈ ts, t.degree v ≤ d := by
  by_cases hmem : v ∈ (node (.nary op) ts).leafNames
  · have hdegree : (node (.nary op) ts).degree v = (ts.map (degree v)).foldr max 0 := by
      rw [degree_node_of_mem hmem]
      rcases hop with rfl | rfl <;> rfl
    rw [hdegree, foldr_max_le_iff, List.forall_mem_map]
  · rw [degree_of_not_mem hmem]
    refine ⟨fun _ t ht => ?_, fun _ => zero_le⟩
    rw [not_mem_leafNames_of_node hmem t ht]
    exact zero_le

theorem degree_mul (ts : List (Tree α)) :
    (node (.nary .mul) ts).degree v = (ts.map (degree v)).sum := by
  by_cases hmem : v ∈ (node (.nary .mul) ts).leafNames
  · rw [degree_node_of_mem hmem]
    rfl
  · rw [degree_of_not_mem hmem, eq_comm, List.sum_eq_zero_iff, List.forall_mem_map]
    exact not_mem_leafNames_of_node hmem

/-- Divisors without the variable do not matter, and with it there is no degree. -/
theorem degree_div (t : Tree α) (ts : List (Tree α)) :
    (node (.nary .div) (t :: ts)).degree v =
      if ∀ u ∈ ts, u.degree v = 0 then t.degree v else ⊤ := by
  by_cases hmem : v ∈ (node (.nary .div) (t :: ts)).leafNames
  · rw [degree_node_of_mem hmem, List.map_cons, Operator.degree]
    simp only [List.forall_mem_map]
  · obtain ⟨ht, hts⟩ := List.forall_mem_cons.1 (not_mem_leafNames_of_node hmem)
    rw [degree_of_not_mem hmem, if_pos hts, ht]

/-- Exponents multiply the degree, which counts at least one for a base without the variable. -/
theorem degree_pow_of_mem {t : Tree α} {ts : List (Tree α)}
    (hmem : v ∈ (node (.nary .pow) (t :: ts)).leafNames) :
    (node (.nary .pow) (t :: ts)).degree v = max 1 (t.degree v) * (ts.map exponentDegree).prod := by
  rw [degree_node_of_mem hmem]
  rfl

/-- With whole numbers for exponents, the degree of the base is multiplied by them. -/
theorem degree_pow_le (t : Tree α) {ts : List (Tree α)} (hts : ∀ u ∈ ts, v ∉ u.leafNames) :
    (node (.nary .pow) (t :: ts)).degree v ≤ t.degree v * (ts.map exponentDegree).prod := by
  by_cases hmem : v ∈ (node (.nary .pow) (t :: ts)).leafNames
  · have ht : v ∈ t.leafNames := by
      obtain ⟨u, hu, hv⟩ := mem_leafNames_node.1 hmem
      rcases List.mem_cons.1 hu with rfl | hu
      · exact hv
      · exact absurd hv (hts u hu)
    rw [degree_pow_of_mem hmem, max_eq_right (one_le_degree ht)]
  · rw [degree_of_not_mem hmem]
    exact zero_le

/-- Where the degree of a power is finite and the variable occurs, it is in the base and all
exponents are whole numbers. -/
theorem exists_of_degree_pow_ne_top {t : Tree α} {ts : List (Tree α)}
    (hmem : v ∈ (node (.nary .pow) (t :: ts)).leafNames)
    (hfinite : (node (.nary .pow) (t :: ts)).degree v ≠ ⊤) :
    v ∈ t.leafNames ∧
      ∀ u ∈ ts, ∃ n : ℕ, 1 ≤ n ∧ u = num (Scalar.ofNat n) ∧ u.exponentDegree = n := by
  have hprod : (ts.map exponentDegree).prod ≠ ⊤ := by
    intro htop
    refine hfinite ?_
    rw [degree_pow_of_mem hmem, htop]
    exact WithTop.mul_top (ne_of_gt (lt_of_lt_of_le zero_lt_one (le_max_left _ _)))
  have hts : ∀ u ∈ ts, ∃ n : ℕ, 1 ≤ n ∧ u = num (Scalar.ofNat n) ∧ u.exponentDegree = n := by
    intro u hu
    refine exists_of_exponentDegree_ne_top fun htop => hprod (top_le_iff.1 ?_)
    rw [← htop]
    exact exponentDegree_le_prod hu
  refine ⟨?_, hts⟩
  obtain ⟨u, hu, hv⟩ := mem_leafNames_node.1 hmem
  rcases List.mem_cons.1 hu with rfl | hu
  · exact hv
  -- the exponents are numbers, so the name is in the base
  · obtain ⟨n, -, rfl, -⟩ := hts u hu
    rw [leafNames] at hv
    cases hv

end Tree

/-! ## Rules do not raise degrees -/

namespace Simplify

open Fluxion.Tree

variable {v : String}

/-- What bounds the degree of arithmetic bounds that of its operands. -/
theorem inherited_degree (d : ℕ∞) : Inherited fun t : Tree α => t.degree v ≤ d where
  num a := by rw [degree_num]; exact zero_le
  operand {op ts} h t ht := by
    by_cases hmem : v ∈ (node (.nary op) ts).leafNames
    · obtain ⟨u, us, rfl⟩ := List.exists_cons_of_ne_nil (List.ne_nil_of_mem ht)
      by_cases htop : d = ⊤
      · rw [htop]
        exact le_top
      have hfinite : (node (.nary op) (u :: us)).degree v ≠ ⊤ := ne_top_of_le_ne_top htop h
      cases op with
      | add => exact (degree_additive_le_iff (Or.inl rfl)).1 h t ht
      | sub => exact (degree_additive_le_iff (Or.inr rfl)).1 h t ht
      | mul =>
        rw [degree_mul] at h
        exact (List.single_le_sum (fun _ _ => zero_le) _ (List.mem_map_of_mem ht)).trans h
      | div =>
        rw [degree_div] at h hfinite
        split at h
        · next hzero =>
          rcases List.mem_cons.1 ht with rfl | ht
          · exact h
          · rw [hzero t ht]
            exact zero_le
        · next hzero => exact absurd (if_neg hzero) hfinite
      | pow =>
        obtain ⟨hbase, hexponents⟩ := exists_of_degree_pow_ne_top hmem hfinite
        rcases List.mem_cons.1 ht with rfl | ht
        · rw [degree_pow_of_mem hmem] at h
          exact ((le_max_right _ _).trans
            (le_mul_of_one_le_right' (one_le_prod_exponentDegree us))).trans h
        · obtain ⟨n, -, rfl, -⟩ := hexponents t ht
          rw [degree_num]
          exact zero_le
    -- without the variable every operand has degree zero
    · rw [not_mem_leafNames_of_node hmem t ht]
      exact zero_le
  term {x c} hx _ _ := by
    rw [degree_mul, List.map_cons, List.map_singleton, List.sum_cons, List.sum_singleton,
      degree_num, add_zero]
    exact hx

theorem degree_of_isConstant {t : Tree α} (h : isConstant t = true) : t.degree v = 0 := by
  obtain ⟨a, rfl⟩ : ∃ a, t = .num a := by
    cases t with
    | num a => exact ⟨a, rfl⟩
    | var x => cases h
    | node op ts => cases h
  exact degree_num a

/-! ### Products -/

/-- Factors of factors add up to the same degree. -/
theorem sum_degree_spread (ts : List (Tree α)) :
    ((ts.flatMap (spread (some .mul))).map (degree v)).sum = (ts.map (degree v)).sum := by
  induction ts with
  | nil => rfl
  | cons t ts ih =>
    rw [List.flatMap_cons, List.map_append, List.sum_append, ih, List.map_cons, List.sum_cons]
    congr 1
    unfold spread
    split
    · next hinlined =>
      obtain ⟨op, us, hop, rfl⟩ := isInlined_eq_true hinlined
      cases hop
      exact (degree_mul us).symm
    · exact List.sum_singleton

theorem sum_degree_placeConstant (a : α) (ts : List (Tree α)) :
    ((placeConstant a ts).map (degree v)).sum ≤ (ts.map (degree v)).sum := by
  induction ts with
  | nil => exact le_rfl
  | cons t ts ih =>
    unfold placeConstant
    split
    · next hconstant =>
      rw [List.map_cons, List.map_cons, List.sum_cons, List.sum_cons, degree_num,
        degree_of_isConstant hconstant]
      exact add_le_add le_rfl ((List.filter_sublist.map _).sum_le_sum fun _ _ => zero_le)
    · rw [List.map_cons, List.map_cons, List.sum_cons, List.sum_cons]
      exact add_le_add le_rfl ih

/-- Constants have no degree, so it does not matter how many are left. -/
theorem sum_degree_gatherConstants (op : NaryOp) (ts : List (Tree α)) :
    ((gatherConstants op ts).map (degree v)).sum ≤ (ts.map (degree v)).sum := by
  unfold gatherConstants
  split
  · exact le_rfl
  · exact sum_degree_placeConstant _ ts

/-- A power of a variable with a whole exponent has at most the degree of as many factors. -/
theorem degree_repeated_le (x : String) (n : ℕ) :
    (node (.nary .pow) [.var x, .num (Scalar.ofNat (n + 2))] : Tree α).degree v ≤
      (n + 2 : ℕ) * (var x : Tree α).degree v := by
  have hexponent : ∀ u ∈ [(.num (Scalar.ofNat (n + 2)) : Tree α)], v ∉ u.leafNames := by
    intro u hu
    rw [List.mem_singleton.1 hu, leafNames]
    exact List.not_mem_nil
  refine (degree_pow_le _ hexponent).trans ?_
  rw [List.map_singleton, List.prod_singleton, mul_comm]
  exact mul_le_mul_left (exponentDegree_num_le (by omega)) _

/-- The factors that are the variable count one each, and the others as before. -/
theorem sum_degree_withoutVariable (x : String) (ts : List (Tree α)) :
    (ts.map (degree v)).sum =
      (ts.countP (isVariable x) : ℕ) * (var x : Tree α).degree v +
        ((withoutVariable x ts).map (degree v)).sum := by
  rw [← ((withoutVariable_perm x ts).map (degree v)).sum_eq, List.map_append, List.map_replicate,
    List.sum_append, List.sum_replicate, nsmul_eq_mul]

/-- Powers in place of repeated factors do not raise the degree. -/
theorem sum_degree_mergeFactors (ts : List (Tree α)) :
    ((mergeFactors ts).map (degree v)).sum ≤ (ts.map (degree v)).sum := by
  fun_induction mergeFactors ts with
  | case1 => exact le_rfl
  | case2 x ts h ih | case4 t ts _ ih =>
    rw [List.map_cons, List.map_cons, List.sum_cons, List.sum_cons]
    exact add_le_add le_rfl ih
  | case3 x ts n h ih =>
    rw [List.map_cons, List.map_cons, List.sum_cons, List.sum_cons,
      sum_degree_withoutVariable x ts, h]
    calc _ ≤ ((n + 2 : ℕ) : ℕ∞) * (var x : Tree α).degree v +
          ((withoutVariable x ts).map (degree v)).sum := add_le_add (degree_repeated_le x n) ih
      _ = _ := by
          push_cast
          ring

/-! ### Powers -/

/-- Other exponents without the variable do not raise the degree if together they count no more. -/
theorem degree_pow_mono {t : Tree α} {ts us : List (Tree α)}
    (hmem : v ∈ (node (.nary .pow) (t :: ts)).leafNames) (hus : ∀ u ∈ us, v ∉ u.leafNames)
    (hprod : (us.map exponentDegree).prod ≤ (ts.map exponentDegree).prod) :
    (node (.nary .pow) (t :: us)).degree v ≤ (node (.nary .pow) (t :: ts)).degree v := by
  refine (degree_pow_le t hus).trans ?_
  rw [degree_pow_of_mem hmem]
  exact mul_le_mul' (le_max_right _ _) hprod

omit [Scalar α] in
theorem not_mem_num (a : α) : v ∉ (num a : Tree α).leafNames := by
  rw [leafNames]
  exact List.not_mem_nil

/-- The exponents of a power of finite degree, as whole numbers. -/
theorem exists_exponents {t : Tree α} {ts : List (Tree α)}
    (hmem : v ∈ (node (.nary .pow) (t :: ts)).leafNames)
    (hfinite : (node (.nary .pow) (t :: ts)).degree v ≠ ⊤) :
    ∃ ns : List ℕ, ts = ns.map (fun n => num (Scalar.ofNat n)) ∧ (∀ n ∈ ns, 1 ≤ n) ∧
      (ts.map exponentDegree).prod = (ns.prod : ℕ) := by
  have hts := (exists_of_degree_pow_ne_top hmem hfinite).2
  clear hmem hfinite
  induction ts with
  | nil => exact ⟨[], rfl, List.forall_mem_nil _, by simp⟩
  | cons u us ih =>
    obtain ⟨⟨n, hn, rfl, hexponent⟩, hus⟩ := List.forall_mem_cons.1 hts
    obtain ⟨ns, rfl, hns, hprod⟩ := ih hus
    refine ⟨n :: ns, rfl, List.forall_mem_cons.2 ⟨hn, hns⟩, ?_⟩
    rw [List.map_cons, List.prod_cons, hexponent, hprod, List.prod_cons]
    exact (Nat.cast_mul _ _).symm

/-- A power at the base of a power gives way to its own base and exponents. -/
theorem degree_flattenBase_le {t : Tree α} {ts us : List (Tree α)}
    (hmem : v ∈ (node (.nary .pow) (node (.nary .pow) (t :: us) :: ts)).leafNames)
    (hfinite : (node (.nary .pow) (node (.nary .pow) (t :: us) :: ts)).degree v ≠ ⊤) :
    (node (.nary .pow) (t :: (us ++ ts))).degree v ≤
      (node (.nary .pow) (node (.nary .pow) (t :: us) :: ts)).degree v := by
  obtain ⟨hbase, hts⟩ := exists_of_degree_pow_ne_top hmem hfinite
  have hbasefinite : (node (.nary .pow) (t :: us)).degree v ≠ ⊤ :=
    ne_top_of_le_ne_top hfinite
      ((inherited_degree _).operand le_rfl _ (List.mem_cons_self ..))
  obtain ⟨-, hus⟩ := exists_of_degree_pow_ne_top hbase hbasefinite
  have hexponents : ∀ u ∈ us ++ ts, v ∉ u.leafNames := by
    intro u hu
    obtain ⟨n, -, rfl, -⟩ := (List.mem_append.1 hu).elim (hus u) (hts u)
    exact not_mem_num _
  refine (degree_pow_le t hexponents).trans ?_
  rw [degree_pow_of_mem hmem, degree_pow_of_mem hbase, List.map_append, List.prod_append,
    ← mul_assoc]
  exact mul_le_mul' ((mul_le_mul' (le_max_right _ _) le_rfl).trans (le_max_right _ _)) le_rfl

/-- Exponents that are whole numbers have those numbers for values. -/
theorem filterMap_value?_exponents (ns : List ℕ) :
    (ns.map (fun n => (num (Scalar.ofNat n) : Tree α))).filterMap value? =
      ns.map Scalar.ofNat := by
  induction ns with
  | nil => rfl
  | cons n ns ih => rw [List.map_cons, List.filterMap_cons, ih]; rfl

theorem withoutConstants_exponents (ns : List ℕ) :
    withoutConstants (ns.map (fun n => (num (Scalar.ofNat n) : Tree α))) = [] :=
  List.filter_eq_nil_iff.2 fun u hu => by
    obtain ⟨n, -, rfl⟩ := List.mem_map.1 hu
    exact Bool.false_ne_true

variable [LawfulScalar α]

/-- Whole numbers are multiplied exactly while the product is below 2⁵³. -/
theorem foldl_mul_ofNat {n : ℕ} {ns : List ℕ} (hn : 1 ≤ n) (hns : ∀ m ∈ ns, 1 ≤ m)
    (hlt : n * ns.prod < 2 ^ 53) :
    (ns.map Scalar.ofNat).foldl Scalar.mul (Scalar.ofNat n : α) = Scalar.ofNat (n * ns.prod) := by
  induction ns generalizing n with
  | nil => rw [List.prod_nil, Nat.mul_one, List.map_nil, List.foldl_nil]
  | cons m ns ih =>
    obtain ⟨hm, hns⟩ := List.forall_mem_cons.1 hns
    rw [List.prod_cons, ← Nat.mul_assoc] at hlt ⊢
    have hle : n * m ≤ n * m * ns.prod := Nat.le_mul_of_pos_right _ (List.prod_pos hns)
    rw [List.map_cons, List.foldl_cons, LawfulScalar.mul_ofNat n m hn hm (hle.trans_lt hlt)]
    exact ih (Nat.mul_pos hn hm) hns hlt

/-- Exponents are gathered into their product. -/
theorem gatherConstants_exponents {n : ℕ} {ns : List ℕ} (hns : ∀ m ∈ n :: ns, 1 ≤ m)
    (hlt : (n :: ns).prod < 2 ^ 53) :
    gatherConstants .pow ((n :: ns).map fun n => (num (Scalar.ofNat n) : Tree α)) =
      [num (Scalar.ofNat (n :: ns).prod)] := by
  obtain ⟨hn, hns⟩ := List.forall_mem_cons.1 hns
  have hgathered : gathered? .pow ((n :: ns).map fun n => (num (Scalar.ofNat n) : Tree α)) =
      some (Scalar.ofNat (n :: ns).prod) := by
    rw [gathered?, filterMap_value?_exponents, List.map_cons]
    exact congrArg some (foldl_mul_ofNat hn hns hlt)
  rw [gatherConstants, hgathered, List.map_cons]
  exact congrArg (num _ :: ·) (withoutConstants_exponents ns)

/-- Gathered exponents count no more than they did. Below 2⁵³ their product is that of the whole
numbers. -/
theorem degree_gatherExponents_le {t : Tree α} {ts : List (Tree α)}
    (hmem : v ∈ (node (.nary .pow) (t :: ts)).leafNames)
    (hlt : (node (.nary .pow) (t :: ts)).degree v < (2 ^ 53 : ℕ)) :
    (node (.nary .pow) (t :: gatherConstants .pow ts)).degree v ≤
      (node (.nary .pow) (t :: ts)).degree v := by
  obtain ⟨ns, hts, hns, hprod⟩ := exists_exponents hmem (ne_top_of_lt hlt)
  -- the product is exact below `2 ^ 53`, so gathering multiplies the exponents as numbers
  have hprodlt : ns.prod < 2 ^ 53 := by
    have hle : ((ns.prod : ℕ) : ℕ∞) ≤ (node (.nary .pow) (t :: ts)).degree v := by
      rw [degree_pow_of_mem hmem, hprod]
      exact le_mul_of_one_le_left' (le_max_left _ _)
    exact_mod_cast hle.trans_lt hlt
  cases ns with
  | nil =>
    rw [hts]
    exact le_rfl
  | cons n ns =>
    have hgathered : gatherConstants .pow ts = [num (Scalar.ofNat (n :: ns).prod)] := by
      rw [hts]
      exact gatherConstants_exponents hns hprodlt
    rw [hgathered]
    refine degree_pow_mono hmem (List.forall_mem_singleton.2 (not_mem_num _)) ?_
    rw [List.map_singleton, List.prod_singleton, hprod]
    exact exponentDegree_num_le (List.prod_pos hns)

/-! ### Every rule -/

omit [LawfulScalar α] in
/-- Neutral operands do not add to the degree. -/
theorem degree_removeNeutral_le {op : NaryOp} {ts : List (Tree α)}
    (hmem : v ∈ (node (.nary op) ts).leafNames)
    (hfinite : (node (.nary op) ts).degree v ≠ ⊤) :
    (node (.nary op) (keptOperands op ts)).degree v ≤ (node (.nary op) ts).degree v := by
  have hsublist := keptOperands_sublist op ts
  have hoperand := (inherited_degree (v := v) _).operand (le_refl ((node (.nary op) ts).degree v))
  cases op with
  | add => exact (degree_additive_le_iff (Or.inl rfl)).2 fun u hu => hoperand u (hsublist.subset hu)
  | sub => exact (degree_additive_le_iff (Or.inr rfl)).2 fun u hu => hoperand u (hsublist.subset hu)
  | mul =>
    rw [degree_mul, degree_mul]
    exact (hsublist.map _).sum_le_sum fun _ _ => zero_le
  | div =>
    obtain ⟨t, ht, -⟩ := mem_leafNames_node.1 hmem
    obtain ⟨u, us, rfl⟩ := List.exists_cons_of_ne_nil (List.ne_nil_of_mem ht)
    have hkept : keptOperands .div (u :: us) = u :: withoutNeutral .div us := rfl
    rw [degree_div] at hfinite ⊢
    have hzero : ∀ w ∈ us, w.degree v = 0 := by
      by_contra hne
      exact hfinite (if_neg hne)
    -- what is left of divisors is free of the variable still
    have hfilter : ∀ w ∈ withoutNeutral .div us, w.degree v = 0 :=
      fun w hw => hzero w (List.mem_of_mem_filter hw)
    rw [hkept, degree_div, if_pos hzero, if_pos hfilter]
  | pow =>
    obtain ⟨t, ht, -⟩ := mem_leafNames_node.1 hmem
    obtain ⟨u, us, rfl⟩ := List.exists_cons_of_ne_nil (List.ne_nil_of_mem ht)
    have hkept : keptOperands .pow (u :: us) = u :: withoutNeutral .pow us := rfl
    rw [hkept]
    refine degree_pow_mono hmem (fun w hw => ?_) ?_
    · obtain ⟨n, -, rfl, -⟩ :=
        (exists_of_degree_pow_ne_top hmem hfinite).2 w (List.mem_of_mem_filter hw)
      exact not_mem_num _
    · exact (List.filter_sublist.map _).prod_le_prod' (one_le_of_mem_map us)

omit [LawfulScalar α] in
/-- Inlined operands count as they did within their node. -/
theorem degree_flatten_le {op : NaryOp} {first : Tree α} {others : List (Tree α)}
    (hinlined : (isInlined (inlinedFirst? op) first ||
      others.any (isInlined (inlinedLater? op))) = true)
    (hmem : v ∈ (node (.nary op) (first :: others)).leafNames)
    (hfinite : (node (.nary op) (first :: others)).degree v ≠ ⊤) :
    (node (.nary op) (spread (inlinedFirst? op) first ++
      others.flatMap (spread (inlinedLater? op)))).degree v ≤
        (node (.nary op) (first :: others)).degree v := by
  have hinherited := inherited_degree (α := α) (v := v)
    ((node (.nary op) (first :: others)).degree v)
  obtain ⟨hfirst, hothers⟩ := List.forall_mem_cons.1 (hinherited.operand le_rfl)
  have hspread : ∀ u ∈ spread (inlinedFirst? op) first ++
      others.flatMap (spread (inlinedLater? op)),
        u.degree v ≤ (node (.nary op) (first :: others)).degree v := by
    refine List.forall_mem_append.2 ⟨hinherited.spread hfirst, fun u hu => ?_⟩
    obtain ⟨o, ho, hu⟩ := List.mem_flatMap.1 hu
    exact hinherited.spread (hothers o ho) u hu
  have hnone : others.any (isInlined none) = false :=
    List.any_eq_false.2 fun _ _ h => by cases h
  have hsame : others.flatMap (spread none) = others := List.flatMap_singleton' others
  cases op with
  | add => exact (degree_additive_le_iff (Or.inl rfl)).2 hspread
  | sub => exact (degree_additive_le_iff (Or.inr rfl)).2 hspread
  | mul =>
    rw [degree_mul, degree_mul]
    exact (sum_degree_spread (first :: others)).le
  | div =>
    have hany : others.any (isInlined none) = true := hinlined
    rw [hnone] at hany
    cases hany
  | pow =>
    have hbase : (isInlined (some .pow) first || others.any (isInlined none)) = true := hinlined
    rw [hnone, Bool.or_false] at hbase
    obtain ⟨op, us, hop, rfl⟩ := isInlined_eq_true hbase
    cases hop
    -- without operands, the base would have no variable
    obtain ⟨hv, -⟩ := exists_of_degree_pow_ne_top hmem hfinite
    obtain ⟨w, hw, -⟩ := mem_leafNames_node.1 hv
    obtain ⟨u, us, rfl⟩ := List.exists_cons_of_ne_nil (List.ne_nil_of_mem hw)
    have hflat : spread (some .pow) (node (.nary .pow) (u :: us)) ++ others.flatMap (spread none) =
        u :: (us ++ others) := by rw [hsame]; rfl
    exact hflat ▸ degree_flattenBase_le hmem hfinite

omit [LawfulScalar α] in
/-- A quotient keeps its degree when divisors are gathered, as none of them has the variable. -/
theorem degree_gatherDivisors_le {t : Tree α} {ts : List (Tree α)}
    (hfinite : (node (.nary .div) (t :: ts)).degree v ≠ ⊤) :
    (node (.nary .div) (gatherRight .div t ts)).degree v ≤
      (node (.nary .div) (t :: ts)).degree v := by
  rw [degree_div] at hfinite ⊢
  have hzero : ∀ u ∈ ts, u.degree v = 0 := by
    by_contra hne
    exact hfinite (if_neg hne)
  rw [if_pos hzero]
  unfold gatherRight
  split
  · have hfilter : ∀ u ∈ withoutConstants ts, u.degree v = 0 :=
      fun u hu => hzero u (List.mem_of_mem_filter hu)
    rw [degree_div, if_pos hfilter, degree_num]
    exact zero_le
  · have hgathered : ∀ u ∈ gatherConstants .div ts, u.degree v = 0 := by
      intro u hu
      rcases mem_gatherConstants hu with hu | ⟨a, -, rfl⟩
      · exact hzero u hu
      · exact degree_num a
    rw [degree_div, if_pos hgathered]

/-- Of a power the exponents are gathered, and of all else constants, which have no degree. -/
theorem degree_foldConstants_le {t t' : Tree α} (h : foldConstants t = some t')
    (hmem : v ∈ t.leafNames) (hlt : t.degree v < (2 ^ 53 : ℕ)) : t'.degree v ≤ t.degree v := by
  obtain ⟨op, first, others, us, rfl, rfl, -, hus⟩ := foldConstants_eq_some h
  have hinherited := inherited_degree (α := α) (v := v)
    ((node (.nary op) (first :: others)).degree v)
  have hoperands := hinherited.operand le_rfl
  obtain ⟨hfirst, hothers⟩ := List.forall_mem_cons.1 hoperands
  rcases hus with ⟨rfl | rfl, rfl⟩ | ⟨rfl | rfl, rfl⟩ | ⟨rfl, -, rfl⟩
  · exact (degree_additive_le_iff (Or.inl rfl)).2 (hinherited.gatherConstants hoperands)
  · rw [degree_mul, degree_mul]
    exact sum_degree_gatherConstants _ _
  · exact (degree_additive_le_iff (Or.inr rfl)).2 (hinherited.gatherRight hfirst hothers)
  · exact degree_gatherDivisors_le (ne_top_of_lt hlt)
  · exact degree_gatherExponents_le hmem hlt

/-- No rule raises a degree below 2⁵³. -/
theorem degree_rewrite_le : ∀ f ∈ rewrites (α := α),
    Respects (fun t t' => t.degree v < (2 ^ 53 : ℕ) → t'.degree v ≤ t.degree v) f := by
  intro f hf t t' h hlt
  -- no rule brings in a variable, so a tree without it keeps degree zero
  by_cases hmem : v ∈ t.leafNames
  swap
  · rw [degree_of_not_mem (not_mem_of_rewrite hf h hmem)]
    exact zero_le
  have hfinite := ne_top_of_lt hlt
  have hinherited := inherited_degree (α := α) (v := v) (t.degree v)
  have hnum : ∀ a, (num a : Tree α).degree v ≤ t.degree v := hinherited.num
  have hconstant : (∃ a, t' = num a) → t'.degree v ≤ t.degree v := by
    rintro ⟨a, rfl⟩
    exact hnum a
  simp only [rewrites, List.mem_cons, List.not_mem_nil, or_false] at hf
  rcases hf with rfl | rfl | rfl | rfl | rfl | rfl | rfl | rfl | rfl | rfl | rfl | rfl
  · obtain ⟨op, ts, rfl, rfl, -⟩ := removeNeutral_eq_some h
    exact degree_removeNeutral_le hmem hfinite
  · obtain ⟨op, ⟨rfl, rfl⟩ | rfl⟩ := spliceUp_eq_some h
    · exact hnum _
    · exact hinherited.operand le_rfl _ (List.mem_singleton_self _)
  · exact hconstant (shortCircuit_eq_some (Or.inl h))
  · exact hconstant (shortCircuit_eq_some (Or.inr (Or.inl h)))
  · exact hconstant (shortCircuit_eq_some (Or.inr (Or.inr (Or.inl h))))
  · exact hconstant (shortCircuit_eq_some (Or.inr (Or.inr (Or.inr h))))
  · obtain ⟨op, ts, e, a, -, -, -, -, rfl⟩ := evaluate_eq_some h
    exact hnum a
  · obtain ⟨op, first, others, rfl, hinlined, rfl⟩ := flatten_eq_some h
    exact degree_flatten_le hinlined hmem hfinite
  · exact degree_foldConstants_le h hmem hlt
  · obtain ⟨ts, rfl, -, rfl⟩ := combineTerms_eq_some.1 h
    exact (degree_additive_le_iff (Or.inl rfl)).2
      (hinherited.mergeTerms (hinherited.operand le_rfl))
  · obtain ⟨first, others, rfl, -, rfl⟩ := subtractTerms_eq_some.1 h
    obtain ⟨hfirst, hothers⟩ := List.forall_mem_cons.1 (hinherited.operand le_rfl)
    exact (degree_additive_le_iff (Or.inr rfl)).2 (hinherited.mergeDifference hfirst hothers)
  · obtain ⟨ts, rfl, -, rfl⟩ := combineFactors_eq_some.1 h
    rw [degree_mul, degree_mul]
    exact sum_degree_mergeFactors _

end Simplify

/-- Simplification at the root does not raise a degree below 2⁵³. -/
theorem Tree.degree_root_le [LawfulScalar α] {v : String} {t : Tree α}
    (h : t.degree v < (2 ^ 53 : ℕ)) : (Simplify.root t).result.degree v ≤ t.degree v :=
  Simplify.root_respects
    (R := fun t t' : Tree α => t.degree v < (2 ^ 53 : ℕ) → t'.degree v ≤ t.degree v)
    (fun _ _ => le_rfl) (fun _ _ _ hst htu hs => (htu ((hst hs).trans_lt hs)).trans (hst hs))
    Simplify.degree_rewrite_le t h

end Fluxion

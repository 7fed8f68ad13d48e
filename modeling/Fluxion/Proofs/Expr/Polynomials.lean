import Fluxion.Proofs.Expr.NormalForms
import Fluxion.Proofs.Simplify.Degree
import Fluxion.Proofs.Simplify.Zeros

/-!
# Polynomials differentiate to zero

A polynomial in a variable is built from the variable and expressions without it by sums, products,
divisors without the variable and whole exponents, and has a degree. Its derivative of any order
above its degree, with all simplification done, is the constant zero
(`Expr.nthDerivative_polynomial`).

The derivative by itself does not have a lower degree: the product rule leaves all factors but one,
and the power rule the base. What lowers the degree is that simplification takes terms with a zero
factor away and that a whole exponent is lowered by one. So the invariant is on normal forms: that
of the derivative of a polynomial of degree `d` has a degree of `d - 1` at most, and is a constant
zero if `d` is zero (`Expr.Lowered`).
-/

namespace Fluxion.Expr

open Simplify

variable {α : Type} [Scalar α]

/-- A polynomial in `v` and its degree, where `counts a n` says that the constant `a` counts as the
whole number `n` when it is an exponent. -/
inductive IsPolynomial (counts : α → ℕ → Prop) (v : String) : Expr α → ℕ → Prop
  | self : IsPolynomial counts v (var v) 1
  | free {e : Expr α} : e.NamesIn (· ≠ v) → IsPolynomial counts v e 0
  | additive {op : NaryOp} {e : Expr α} {es : List (Expr α)} (degree : Expr α → ℕ) :
      op = .add ∨ op = .sub → (∀ t ∈ e :: es, IsPolynomial counts v t (degree t)) →
      IsPolynomial counts v (nary op e es) (((e :: es).map degree).foldr max 0)
  | product {e : Expr α} {es : List (Expr α)} (degree : Expr α → ℕ) :
      (∀ t ∈ e :: es, IsPolynomial counts v t (degree t)) →
      IsPolynomial counts v (nary .mul e es) ((e :: es).map degree).sum
  | quotient {e : Expr α} {ds : List (Expr α)} {d : ℕ} :
      IsPolynomial counts v e d → (∀ t ∈ ds, t.NamesIn (· ≠ v)) →
      IsPolynomial counts v (nary .div e ds) d
  | power {b : Expr α} {es : List (Expr α)} {d : ℕ} (exponent : Expr α → ℕ) :
      IsPolynomial counts v b d → (∀ t ∈ es, ∃ a, t = num a ∧ counts a (exponent t)) →
      IsPolynomial counts v (nary .pow b es) (d * (es.map exponent).prod)

/-- Whole numbers count as themselves, and nothing counts as a whole number that is not the same. -/
structure Counting (counts : α → ℕ → Prop) : Prop where
  ofNat (n : ℕ) : counts (Scalar.ofNat n) n
  same {a : α} {n : ℕ} : counts a n → Scalar.same a (Scalar.ofNat n) = true

/-- The tree is a constant that counts as zero. -/
def IsNull (counts : α → ℕ → Prop) (t : Tree α) : Prop := ∃ a, t = .num a ∧ counts a 0

/-- What is required of the normal form of a derivative where the degree was `d`. -/
structure Lowered (counts : α → ℕ → Prop) (v : String) (d : ℕ) (t : Tree α) : Prop where
  degree : t.degree v ≤ (d - 1 : ℕ)
  null : d = 0 → IsNull counts t

variable {counts : α → ℕ → Prop} {v : String}

theorem IsNull.degree {t : Tree α} (h : IsNull counts t) : t.degree v = 0 := by
  obtain ⟨a, rfl, -⟩ := h
  exact Tree.degree_num a

theorem IsNull.lowered {t : Tree α} (h : IsNull counts t) (d : ℕ) : Lowered counts v d t where
  degree := by
    rw [h.degree]
    exact zero_le
  null _ := h

/-! ## Normal forms of zeros -/

theorem isNull_zero (hcounts : Counting counts) : IsNull counts (.num (Scalar.ofNat 0)) :=
  ⟨_, rfl, hcounts.ofNat 0⟩

section

variable [LawfulScalar α] (hcounts : Counting counts)

include hcounts

/-- What counts as zero is taken for zero by the rules. -/
theorem isZero_of_counts {a : α} (h : counts a 0) : Scalar.isZero a = true :=
  (LawfulScalar.near_of_same_zero a (hcounts.same h)).1

/-- What counts as zero is not taken for one. -/
theorem isOne_of_counts {a : α} (h : counts a 0) : Scalar.isOne a = false :=
  (LawfulScalar.near_of_same_zero a (hcounts.same h)).2

theorem IsNull.isZero {t : Tree α} (h : IsNull counts t) : Simplify.isZero t = true := by
  obtain ⟨a, rfl, ha⟩ := h
  exact isZero_of_counts hcounts ha

/-- A product with a zero factor is zero. -/
theorem isNull_product {e : Expr α} {es : List (Expr α)} (hmem : e ∈ es)
    (h : IsNull counts e.normalForm) : IsNull counts (product es).normalForm := by
  obtain ⟨f, fs, rfl⟩ := List.exists_cons_of_ne_nil (List.ne_nil_of_mem hmem)
  obtain ⟨a, heq, ha⟩ := h
  have hfactor : .num a ∈ (f :: fs).map normalForm := heq ▸ List.mem_map_of_mem hmem
  rw [product, normalForm_nary]
  rcases root_mul_zero hfactor (isZero_of_counts hcounts ha) (isOne_of_counts hcounts ha) with h | h
  · rw [h]
    exact ⟨a, rfl, ha⟩
  · rw [h]
    exact isNull_zero hcounts

theorem isNull_mul {a b : Expr α} (h : IsNull counts a.normalForm ∨ IsNull counts b.normalForm) :
    IsNull counts (binary .mul a b).normalForm := by
  show IsNull counts (product [a, b]).normalForm
  rcases h with h | h
  · exact isNull_product hcounts (by simp) h
  · exact isNull_product hcounts (by simp) h

/-- A sum of zeros is zero. -/
theorem isNull_add {e : Expr α} {es : List (Expr α)}
    (h : ∀ t ∈ e :: es, IsNull counts t.normalForm) :
    IsNull counts (nary .add e es).normalForm := by
  have hzeros : ∀ t ∈ (e :: es).map normalForm, Simplify.isZero t = true :=
    List.forall_mem_map.2 fun t ht => (h t ht).isZero hcounts
  rw [normalForm_nary, root_add_zeros hzeros]
  exact isNull_zero hcounts

theorem isNull_sum {es : List (Expr α)} (h : ∀ t ∈ es, IsNull counts t.normalForm) :
    IsNull counts (sum es).normalForm := by
  cases es with
  | nil => rw [sum, normalForm_num]; exact isNull_zero hcounts
  | cons e es => exact isNull_add hcounts h

/-- A difference of zeros is zero. -/
theorem isNull_sub {e : Expr α} {es : List (Expr α)}
    (h : ∀ t ∈ e :: es, IsNull counts t.normalForm) :
    IsNull counts (nary .sub e es).normalForm := by
  obtain ⟨⟨a, heq, ha⟩, hes⟩ := List.forall_mem_cons.1 h
  have hzeros : ∀ t ∈ es.map normalForm, Simplify.isZero t = true :=
    List.forall_mem_map.2 fun t ht => (hes t ht).isZero hcounts
  rw [normalForm_nary, List.map_cons, heq, root_sub_zeros hzeros]
  exact ⟨a, rfl, ha⟩

/-- Zero divided by anything is zero. -/
theorem isNull_div {e : Expr α} (es : List (Expr α)) (h : IsNull counts e.normalForm) :
    IsNull counts (nary .div e es).normalForm := by
  obtain ⟨a, heq, ha⟩ := h
  rw [normalForm_nary, List.map_cons, heq]
  rcases root_div_zero (es.map normalForm) (isZero_of_counts hcounts ha) with h | h
  · rw [h]
    exact ⟨a, rfl, ha⟩
  · rw [h]
    exact isNull_zero hcounts

/-! ## Derivatives of expressions without the variable -/

/-- Every term of the product rule has one of the derivatives as a factor. -/
theorem isNull_productTerms {ps : List (Expr α × Expr α)}
    (h : ∀ p ∈ ps, IsNull counts p.2.normalForm) :
    ∀ before, ∀ t ∈ productTerms before ps, IsNull counts t.normalForm := by
  induction ps with
  | nil => intro before t ht; cases ht
  | cons p ps ih =>
    intro before t ht
    obtain ⟨hp, hps⟩ := List.forall_mem_cons.1 h
    rcases List.mem_cons.1 ht with rfl | ht
    · exact isNull_product hcounts (by simp) hp
    · exact ih hps _ t ht

/-- The derivative of a quotient is zero if those of all its operands are. -/
theorem isNull_quotientDerivative {first : Expr α} {ps : List (Expr α × Expr α)}
    (h : ∀ p ∈ ps, IsNull counts p.2.normalForm) :
    ∀ {ds numerator'}, IsNull counts numerator'.normalForm →
      IsNull counts (quotientDerivative first ds numerator' ps).normalForm := by
  induction ps with
  | nil => intro ds numerator' hnumerator; exact hnumerator
  | cons p ps ih =>
    intro ds numerator' hnumerator
    obtain ⟨hp, hps⟩ := List.forall_mem_cons.1 h
    refine ih hps (isNull_div hcounts _ (isNull_sub hcounts (List.forall_mem_cons.2 ⟨?_, ?_⟩)))
    · exact isNull_mul hcounts (Or.inl hnumerator)
    · exact List.forall_mem_singleton.2 (isNull_mul hcounts (Or.inr hp))

/-- The derivative of a power is zero if those of base and exponent are. -/
theorem isNull_powerRule {b b' e e' : Expr α} (hb : IsNull counts b'.normalForm)
    (he : IsNull counts e'.normalForm) : IsNull counts (powerRule b b' e e').normalForm := by
  unfold powerRule
  split
  · exact isNull_product hcounts (by simp) he
  split
  · exact isNull_product hcounts (by simp) hb
  · refine isNull_sum hcounts (List.forall_mem_cons.2 ⟨?_, List.forall_mem_singleton.2 ?_⟩)
    · exact isNull_product hcounts (by simp) he
    · exact isNull_product hcounts (by simp) hb

/-- It is zero as well if the exponent is, whatever the base is. -/
theorem isNull_powerRule_zero {a : α} (ha : counts a 0) (b b' : Expr α) {e' : Expr α}
    (he : IsNull counts e'.normalForm) :
    IsNull counts (powerRule b b' (num a) e').normalForm := by
  have hvariable : (num a).hasVariable = false := hasVariable_eq_false_iff.2 (by rw [leafNames])
  unfold powerRule
  split
  · exact isNull_product hcounts (by simp) he
  · rw [hvariable]
    exact isNull_product hcounts (List.mem_cons_self ..) ⟨a, normalForm_num a, ha⟩

/-- Where the exponents have zero derivatives, that of a power is zero if that of the base is, or if
one of the exponents is zero itself. -/
theorem isNull_powerDerivative {ps : List (Expr α × Expr α)}
    (hps : ∀ p ∈ ps, IsNull counts p.2.normalForm) :
    ∀ {b b' : Expr α}, IsNull counts b'.normalForm ∨ (∃ p ∈ ps, ∃ a, p.1 = num a ∧ counts a 0) →
      IsNull counts (powerDerivative b b' ps).normalForm := by
  induction ps with
  | nil =>
    rintro b b' (h | ⟨p, hp, -⟩)
    · exact h
    · cases hp
  | cons p ps ih =>
    obtain ⟨hp, hafter⟩ := List.forall_mem_cons.1 hps
    rintro b b' (h | ⟨q, hq, a, heq, ha⟩)
    · exact ih hafter (Or.inl (isNull_powerRule hcounts h hp))
    rcases List.mem_cons.1 hq with rfl | hq
    · refine ih hafter (Or.inl ?_)
      rw [heq]
      exact isNull_powerRule_zero hcounts ha b b' hp
    · exact ih hafter (Or.inr ⟨q, hq, a, heq, ha⟩)

/-- The derivative of a function is zero if that of its operand is. -/
theorem isNull_funcDerivative (f : Func) {e e' : Expr α} (h : IsNull counts e'.normalForm) :
    IsNull counts (funcDerivative f e e').normalForm := by
  cases f with
  | ln =>
    show IsNull counts (product [binary .div one e, e']).normalForm
    exact isNull_product hcounts (by simp) h
  | sin =>
    show IsNull counts (product [func .cos e, e']).normalForm
    exact isNull_product hcounts (by simp) h
  | cos =>
    show IsNull counts (product [num (Scalar.neg (Scalar.ofNat 1)), func .sin e, e']).normalForm
    exact isNull_product hcounts (by simp) h

/-- The derivative with respect to a variable that does not occur is zero. -/
theorem isNull_derivative {e : Expr α} (h : e.NamesIn (· ≠ v)) :
    IsNull counts (e.derivative v).normalForm := by
  induction e using operands_induction with
  | num a =>
    rw [derivative, normalForm_num]
    exact isNull_zero hcounts
  | var x =>
    rw [derivative, if_neg (namesIn_var.1 h), normalForm_num]
    exact isNull_zero hcounts
  | nary op e es ihe ihes =>
    obtain ⟨he, hes⟩ := namesIn_nary.1 h
    have hfirst := ihe he
    have hpairs : ∀ p ∈ es.map (fun e => (e, e.derivative v)), IsNull counts p.2.normalForm :=
      List.forall_mem_map.2 fun d hd => ihes d hd (hes d hd)
    rw [derivative]
    -- each rule leaves only terms with the derivative of some operand as a factor
    cases op with
    | add =>
      exact isNull_add hcounts (List.forall_mem_cons.2 ⟨hfirst, List.forall_mem_map.2 hpairs⟩)
    | sub =>
      exact isNull_sub hcounts (List.forall_mem_cons.2 ⟨hfirst, List.forall_mem_map.2 hpairs⟩)
    | mul =>
      have hall : ∀ p ∈ (e, e.derivative v) :: es.map (fun e => (e, e.derivative v)),
          IsNull counts p.2.normalForm := List.forall_mem_cons.2 ⟨hfirst, hpairs⟩
      exact isNull_sum hcounts (isNull_productTerms hcounts hall [])
    | div => exact isNull_quotientDerivative hcounts hpairs hfirst
    | pow => exact isNull_powerDerivative hcounts hpairs (Or.inl hfirst)
  | func f e ih =>
    rw [derivative]
    exact isNull_funcDerivative hcounts f (ih (namesIn_func.1 h))

end

/-! ## Degrees of normal forms -/

/-- No variable comes in. -/
theorem not_mem_leafNames_normalForm {e : Expr α} (h : e.NamesIn (· ≠ v)) :
    v ∉ e.normalForm.leafNames := by
  intro hmem
  have hv : v ∈ e.leafNames := by
    rw [← leafNames_toTree]
    exact Tree.leafNames_simplify_subset _ hmem
  exact h v hv rfl

/-- Simplification brings in no variable, so without it the degree stays zero. -/
theorem degree_normalForm_of_free {e : Expr α} (h : e.NamesIn (· ≠ v)) :
    e.normalForm.degree v = 0 :=
  Tree.degree_of_not_mem (not_mem_leafNames_normalForm h)

section

variable [LawfulScalar α] {d : ℕ}

/-- Simplification at the root does not raise the degree. -/
theorem degree_normalForm_nary_le (hd : d < 2 ^ 53) {op : NaryOp} {e : Expr α} {es : List (Expr α)}
    (h : (Tree.node (.nary op) ((e :: es).map normalForm)).degree v ≤ d) :
    (nary op e es).normalForm.degree v ≤ d := by
  have hlt : ((d : ℕ) : ℕ∞) < (2 ^ 53 : ℕ) := by exact_mod_cast hd
  rw [normalForm_nary]
  exact (Tree.degree_root_le (h.trans_lt hlt)).trans h

/-- A sum or a difference has no higher degree than its operands, also when it is simplified. -/
theorem degree_additive_le (hd : d < 2 ^ 53) {op : NaryOp} (hop : op = .add ∨ op = .sub)
    {e : Expr α} {es : List (Expr α)} (h : ∀ t ∈ e :: es, t.normalForm.degree v ≤ d) :
    (nary op e es).normalForm.degree v ≤ d :=
  degree_normalForm_nary_le hd
    ((Tree.degree_additive_le_iff hop).2 (List.forall_mem_map.2 h))

theorem degree_sum_le (hd : d < 2 ^ 53) {es : List (Expr α)}
    (h : ∀ t ∈ es, t.normalForm.degree v ≤ d) : (sum es).normalForm.degree v ≤ d := by
  cases es with
  | nil =>
    rw [sum, normalForm_num, Tree.degree_num]
    exact zero_le
  | cons e es => exact degree_additive_le hd (Or.inl rfl) h

/-- A product has at most the sum of the degrees of its factors, also when it is simplified. -/
theorem degree_product_le (hd : d < 2 ^ 53) {es : List (Expr α)}
    (h : (es.map fun t => t.normalForm.degree v).sum ≤ d) :
    (product es).normalForm.degree v ≤ d := by
  cases es with
  | nil =>
    rw [product, normalForm_num, Tree.degree_num]
    exact zero_le
  | cons e es =>
    refine degree_normalForm_nary_le hd ?_
    rw [Tree.degree_mul, List.map_map]
    exact h

/-- Divisors without the variable leave the degree of the dividend. -/
theorem degree_div_le (hd : d < 2 ^ 53) {e : Expr α} {ds : List (Expr α)}
    (hds : ∀ t ∈ ds, t.NamesIn (· ≠ v)) (h : e.normalForm.degree v ≤ d) :
    (nary .div e ds).normalForm.degree v ≤ d := by
  have hdivisors : ∀ t ∈ ds.map normalForm, t.degree v = 0 :=
    List.forall_mem_map.2 fun t ht => degree_normalForm_of_free (hds t ht)
  refine degree_normalForm_nary_le hd ?_
  rw [List.map_cons, Tree.degree_div, if_pos hdivisors]
  exact h

/-- A whole exponent multiplies the degree of the base, also if it is zero. -/
theorem degree_power_le {b c : Expr α} {k m : ℕ} (hm : m * k < 2 ^ 53)
    (hc : c.normalForm = .num (Scalar.ofNat k)) (h : b.normalForm.degree v ≤ m) :
    (binary .pow b c).normalForm.degree v ≤ (m * k : ℕ) := by
  rcases Nat.eq_zero_or_pos k with rfl | hk
  · have hzero : Scalar.isZero (Scalar.ofNat 0 : α) = true :=
      (LawfulScalar.near_ofNat_zero_iff 0).2 rfl
    have hone : Scalar.isOne (Scalar.ofNat 0 : α) = false :=
      Bool.eq_false_iff.2 fun hnear => by cases (LawfulScalar.near_ofNat_one_iff 0).1 hnear
    rw [binary, normalForm_nary, List.map_cons, List.map_singleton, hc,
      root_pow_zero (List.mem_singleton_self _) hzero hone, Tree.degree_num]
    exact zero_le
  · have hexponents : ∀ u ∈ [(.num (Scalar.ofNat k) : Tree α)], v ∉ u.leafNames :=
      List.forall_mem_singleton.2 (not_mem_num _)
    refine degree_normalForm_nary_le hm ?_
    rw [List.map_cons, List.map_singleton, hc]
    refine (Tree.degree_pow_le _ hexponents).trans ?_
    rw [List.map_singleton, List.prod_singleton, Nat.cast_mul]
    exact mul_le_mul' h (Tree.exponentDegree_num_le hk)

omit [Scalar α] [LawfulScalar α] in
theorem one_le_prod {exponent : Expr α → ℕ} {es : List (Expr α)}
    (h : ∀ t ∈ es, 1 ≤ exponent t) : 1 ≤ (es.map exponent).prod := by
  have hpos : ∀ k ∈ es.map exponent, 0 < k := List.forall_mem_map.2 h
  exact List.prod_pos hpos

omit [Scalar α] [LawfulScalar α] in
theorem sum_le_natCast {f : Expr α → ℕ∞} {g : Expr α → ℕ} {es : List (Expr α)}
    (h : ∀ t ∈ es, f t ≤ g t) : (es.map f).sum ≤ ((es.map g).sum : ℕ) := by
  rw [Nat.cast_list_sum, List.map_map]
  exact List.sum_le_sum h

/-- Among exponents there is a zero, or they are whole numbers of at least one. -/
theorem exponents_cases (hcounts : Counting counts) {exponent : Expr α → ℕ} {es : List (Expr α)}
    (hes : ∀ t ∈ es, ∃ a, t = num a ∧ counts a (exponent t)) :
    (∃ a, num a ∈ es ∧ counts a 0 ∧ (es.map exponent).prod = 0) ∨
      ∀ t ∈ es, 1 ≤ exponent t ∧ t = num (Scalar.ofNat (exponent t)) := by
  by_cases hzero : ∃ t ∈ es, exponent t = 0
  · left
    obtain ⟨t, ht, hexponent⟩ := hzero
    obtain ⟨a, rfl, ha⟩ := hes t ht
    rw [hexponent] at ha
    exact ⟨a, ht, ha, List.prod_eq_zero (List.mem_map.2 ⟨_, ht, hexponent⟩)⟩
  · right
    intro t ht
    obtain ⟨k, hk⟩ := Nat.exists_eq_succ_of_ne_zero fun h => hzero ⟨t, ht, h⟩
    obtain ⟨a, rfl, ha⟩ := hes t ht
    rw [hk] at ha ⊢
    rw [LawfulScalar.eq_of_same_ofNat a k (hcounts.same ha)]
    exact ⟨Nat.succ_pos k, rfl⟩

/-- A polynomial in normal form has no higher degree. -/
theorem IsPolynomial.degree_le (hcounts : Counting counts) {e : Expr α}
    (h : IsPolynomial counts v e d) (hd : d < 2 ^ 53) : e.normalForm.degree v ≤ d := by
  induction h with
  | self =>
    rw [normalForm_var, Tree.degree_var, if_pos rfl]
    exact le_rfl
  | free h =>
    rw [degree_normalForm_of_free h]
    exact zero_le
  | @additive op e es degree hop hts ih =>
    refine degree_additive_le hd hop fun t ht => ?_
    have hle : degree t ≤ ((e :: es).map degree).foldr max 0 :=
      List.le_max_of_le' 0 (List.mem_map_of_mem ht) le_rfl
    exact (ih t ht (hle.trans_lt hd)).trans (by exact_mod_cast hle)
  | @product e es degree hts ih =>
    show (Expr.product (e :: es)).normalForm.degree v ≤ _
    refine degree_product_le hd (sum_le_natCast fun t ht => ih t ht ?_)
    exact (List.single_le_sum (fun _ _ => Nat.zero_le _) _ (List.mem_map_of_mem ht)).trans_lt hd
  | quotient h hds ih => exact degree_div_le hd hds (ih hd)
  | @power b es m exponent h hes ih =>
    -- an exponent that counts as zero makes the whole power one; otherwise the degrees multiply
    rcases exponents_cases hcounts hes with ⟨a, hmem, ha, -⟩ | hwhole
    · have hexponent : .num a ∈ es.map normalForm :=
        List.mem_map.2 ⟨num a, hmem, normalForm_num a⟩
      rw [normalForm_nary, List.map_cons, root_pow_zero hexponent (isZero_of_counts hcounts ha)
        (isOne_of_counts hcounts ha), Tree.degree_num]
      exact zero_le
    · have hprod := one_le_prod fun t ht => (hwhole t ht).1
      have hexponents : ∀ u ∈ es.map normalForm, v ∉ u.leafNames :=
        List.forall_mem_map.2 fun t ht => by
          rw [(hwhole t ht).2, normalForm_num]
          exact not_mem_num _
      have hdegrees : ((es.map normalForm).map Tree.exponentDegree).prod ≤
          ((es.map exponent).prod : ℕ) := by
        rw [Nat.cast_list_prod, List.map_map, List.map_map]
        refine List.prod_le_prod' fun t ht => ?_
        show t.normalForm.exponentDegree ≤ exponent t
        conv_lhs => rw [(hwhole t ht).2, normalForm_num]
        exact Tree.exponentDegree_num_le (hwhole t ht).1
      refine degree_normalForm_nary_le hd ?_
      rw [List.map_cons, Nat.cast_mul]
      refine (Tree.degree_pow_le _ hexponents).trans (mul_le_mul' (ih ?_) hdegrees)
      exact (Nat.le_mul_of_pos_right m hprod).trans_lt hd

/-! ## Derivatives have lower degrees -/

/-- The power rule for a whole exponent. -/
theorem degree_powerRule_le (hcounts : Counting counts) {b b' e' : Expr α} {k m : ℕ} (hk : 1 ≤ k)
    (hm : 1 ≤ m) (hlt : m * k < 2 ^ 53) (hb : b.normalForm.degree v ≤ m)
    (hb' : b'.normalForm.degree v ≤ (m - 1 : ℕ)) (he' : IsNull counts e'.normalForm) :
    (powerRule b b' (num (Scalar.ofNat k)) e').normalForm.degree v ≤ (m * k - 1 : ℕ) := by
  obtain ⟨k, rfl⟩ := Nat.exists_eq_add_of_le' hk
  have hk' : k + 1 < 2 ^ 53 := (Nat.le_mul_of_pos_left _ hm).trans_lt hlt
  have hdegree : m * (k + 1) - 1 = m * k + (m - 1) := by
    rw [Nat.mul_succ, Nat.add_sub_assoc hm]
  have hlower : m * k + (m - 1) < 2 ^ 53 := by omega
  have hlowered : (binary .sub (num (Scalar.ofNat (k + 1))) one : Expr α).normalForm =
      .num (Scalar.ofNat k) := by
    rw [normalForm_sub_one (normalForm_num _), LawfulScalar.sub_ofNat_one k hk']
  have hpower := degree_power_le (by omega : m * k < 2 ^ 53) hlowered hb
  unfold powerRule
  -- a base without any variable makes a product with the derivative of the exponent, a null one
  split
  · have hnull : IsNull counts
        (product [func .ln b, binary .pow b (num (Scalar.ofNat (k + 1))), e']).normalForm :=
      isNull_product hcounts (by simp) he'
    rw [hnull.degree]
    exact zero_le
  · have hexponent : (num (Scalar.ofNat (k + 1)) : Expr α).hasVariable = false :=
      hasVariable_eq_false_iff.2 (by rw [leafNames])
    rw [hexponent, Bool.not_false, if_pos rfl, hdegree]
    refine degree_product_le hlower ?_
    simp only [List.map_cons, List.map_nil, List.sum_cons, List.sum_nil, normalForm_num,
      Tree.degree_num, zero_add, add_zero, Nat.cast_add]
    exact add_le_add hpower hb'

/-- The derivative of a chain of powers is one degree lower, by induction on the exponents. -/
theorem degree_powerDerivative_le (hcounts : Counting counts) {exponent : Expr α → ℕ}
    {es : List (Expr α)} (hes : ∀ t ∈ es, 1 ≤ exponent t ∧ t = num (Scalar.ofNat (exponent t))) :
    ∀ {b b' : Expr α} {m : ℕ}, 1 ≤ m → m * (es.map exponent).prod < 2 ^ 53 →
      b.normalForm.degree v ≤ m → b'.normalForm.degree v ≤ (m - 1 : ℕ) →
      (powerDerivative b b' (es.map fun t => (t, t.derivative v))).normalForm.degree v ≤
        (m * (es.map exponent).prod - 1 : ℕ) := by
  induction es with
  | nil =>
    intro b b' m _ _ _ hb'
    rw [List.map_nil, List.map_nil, List.prod_nil, Nat.mul_one]
    exact hb'
  | cons e es ih =>
    intro b b' m hm hlt hb hb'
    obtain ⟨⟨hk, he⟩, hafter⟩ := List.forall_mem_cons.1 hes
    have hprod := one_le_prod fun t ht => (hafter t ht).1
    -- the first exponent goes into the base, of degree `m * exponent e`
    have hsplit : m * ((e :: es).map exponent).prod =
        m * exponent e * (es.map exponent).prod := by
      rw [List.map_cons, List.prod_cons, Nat.mul_assoc]
    rw [hsplit] at hlt ⊢
    have hlt' : m * exponent e < 2 ^ 53 := (Nat.le_mul_of_pos_right _ hprod).trans_lt hlt
    have he' : IsNull counts (e.derivative v).normalForm := by
      rw [he, derivative, normalForm_num]
      exact isNull_zero hcounts
    have hnormal : e.normalForm = .num (Scalar.ofNat (exponent e)) := by
      conv_lhs => rw [he, normalForm_num]
    refine ih hafter (Nat.mul_pos hm hk) hlt (degree_power_le hlt' hnormal hb) ?_
    have hrule := degree_powerRule_le hcounts hk hm hlt' hb hb' he'
    rwa [← he] at hrule

/-- The product rule takes one factor at a time. -/
theorem degree_productTerms_le (hcounts : Counting counts) {degree : Expr α → ℕ}
    {ps : List (Expr α × Expr α)}
    (hps : ∀ p ∈ ps, p.1.normalForm.degree v ≤ degree p.1 ∧
      Lowered counts v (degree p.1) p.2.normalForm) :
    ∀ (before : List (Expr α)) {m : ℕ},
      (before.map fun t => t.normalForm.degree v).sum ≤ m →
      m + (ps.map fun p => degree p.1).sum < 2 ^ 53 →
      ∀ t ∈ productTerms before ps,
        t.normalForm.degree v ≤ (m + (ps.map fun p => degree p.1).sum - 1 : ℕ) := by
  induction ps with
  | nil => intro before m _ _ t ht; cases ht
  | cons p ps ih =>
    obtain ⟨e, e'⟩ := p
    intro before m hbefore hlt t ht
    obtain ⟨⟨he, he'⟩, hafter⟩ := List.forall_mem_cons.1 hps
    rw [List.map_cons, List.sum_cons] at hlt ⊢
    dsimp only at hlt ⊢
    rcases List.mem_cons.1 ht with rfl | ht
    -- a factor of degree zero has no derivative, so its term is nothing
    · by_cases hzero : degree e = 0
      · have hnull : IsNull counts (product (before ++ e' :: ps.map Prod.fst)).normalForm :=
          isNull_product hcounts (by simp) (he'.null hzero)
        rw [hnull.degree]
        exact zero_le
      · have hothers : ((ps.map Prod.fst).map fun t => t.normalForm.degree v).sum ≤
            ((ps.map fun p => degree p.1).sum : ℕ) := by
          have hdegrees : ∀ t ∈ ps.map Prod.fst, t.normalForm.degree v ≤ degree t :=
            List.forall_mem_map.2 fun p hp => (hafter p hp).1
          have hle := sum_le_natCast hdegrees
          rwa [List.map_map (f := Prod.fst) (g := degree)] at hle
        have hsum : m + (degree e + (ps.map fun p => degree p.1).sum) - 1 =
            m + ((degree e - 1) + (ps.map fun p => degree p.1).sum) := by omega
        have hlt' : m + ((degree e - 1) + (ps.map fun p => degree p.1).sum) < 2 ^ 53 := by
          omega
        rw [hsum]
        refine degree_product_le hlt' ?_
        rw [List.map_append, List.map_cons, List.sum_append, List.sum_cons, Nat.cast_add,
          Nat.cast_add]
        exact add_le_add hbefore (add_le_add he'.degree hothers)
    -- the later terms have one more factor in front of the one that is differentiated
    · rw [← Nat.add_assoc] at hlt ⊢
      refine ih hafter _ ?_ hlt t ht
      rw [List.map_append, List.sum_append, List.map_singleton, List.sum_singleton, Nat.cast_add]
      exact add_le_add hbefore he

/-- The quotient rule for divisors without the variable. -/
theorem degree_quotientDerivative_le (hcounts : Counting counts) (hd : d < 2 ^ 53)
    {first : Expr α} {ps : List (Expr α × Expr α)}
    (hps : ∀ p ∈ ps, p.1.NamesIn (· ≠ v) ∧ IsNull counts p.2.normalForm) :
    ∀ {ds : List (Expr α)} {numerator' : Expr α}, numerator'.normalForm.degree v ≤ d →
      (quotientDerivative first ds numerator' ps).normalForm.degree v ≤ d := by
  induction ps with
  | nil => intro ds numerator' h; exact h
  | cons p ps ih =>
    obtain ⟨b, b'⟩ := p
    intro ds numerator' h
    obtain ⟨⟨hb, hb'⟩, hafter⟩ := List.forall_mem_cons.1 hps
    have hleft : (binary .mul numerator' b).normalForm.degree v ≤ d := by
      show (product [numerator', b]).normalForm.degree v ≤ d
      refine degree_product_le hd ?_
      rw [List.map_cons, List.map_singleton, List.sum_cons, List.sum_singleton,
        degree_normalForm_of_free hb, add_zero]
      exact h
    -- the divisor is free of the variable, so the subtrahend of the rule is nothing
    have hright : IsNull counts (binary .mul (quotient first ds) b').normalForm :=
      isNull_mul hcounts (Or.inr hb')
    have hdifference : (binary .sub (binary .mul numerator' b)
        (binary .mul (quotient first ds) b')).normalForm.degree v ≤ d := by
      refine degree_additive_le hd (Or.inr rfl) (List.forall_mem_cons.2 ⟨hleft, ?_⟩)
      rw [List.forall_mem_singleton, hright.degree]
      exact zero_le
    refine ih hafter (degree_div_le hd (List.forall_mem_singleton.2 ?_) hdifference)
    exact namesIn_nary.2 ⟨hb, List.forall_mem_singleton.2 (namesIn_num _)⟩

/-- The derivative of a polynomial has a lower degree in normal form, or is zero. -/
theorem IsPolynomial.lowered (hcounts : Counting counts) {e : Expr α}
    (h : IsPolynomial counts v e d) (hd : d < 2 ^ 53) :
    Lowered counts v d (e.derivative v).normalForm := by
  induction h with
  | self =>
    rw [derivative, if_pos rfl, normalForm_num]
    exact ⟨by rw [Tree.degree_num]; exact zero_le, fun h => by cases h⟩
  | free h => exact (isNull_derivative hcounts h).lowered 0
  | @additive op e es degree hop hts ih =>
    have hle : ∀ t ∈ e :: es, degree t ≤ ((e :: es).map degree).foldr max 0 :=
      fun t ht => List.le_max_of_le' 0 (List.mem_map_of_mem ht) le_rfl
    have hlowered : ∀ t ∈ e :: es, Lowered counts v (degree t) (t.derivative v).normalForm :=
      fun t ht => ih t ht ((hle t ht).trans_lt hd)
    -- sums and differences are differentiated operand by operand
    have hterms : (nary op e es).derivative v =
        nary op (e.derivative v) (es.map (derivative v)) := by
      have hpairs : (es.map fun t => (t, t.derivative v)).map Prod.snd = es.map (derivative v) := by
        rw [List.map_map]
        rfl
      rw [derivative, ← hpairs]
      rcases hop with rfl | rfl <;> rfl
    rw [hterms]
    constructor
    · have hdegrees : ∀ t ∈ (e :: es).map (derivative v),
          t.normalForm.degree v ≤ (((e :: es).map degree).foldr max 0 - 1 : ℕ) :=
        List.forall_mem_map.2 fun t ht => (hlowered t ht).degree.trans
          (by exact_mod_cast Nat.sub_le_sub_right (hle t ht) 1)
      exact degree_additive_le (by omega) hop hdegrees
    · intro hzero
      have hnull : ∀ t ∈ (e :: es).map (derivative v), IsNull counts t.normalForm :=
        List.forall_mem_map.2 fun t ht =>
          (hlowered t ht).null (Nat.le_zero.1 (hzero ▸ hle t ht))
      rcases hop with rfl | rfl
      · exact isNull_add hcounts hnull
      · exact isNull_sub hcounts hnull
  | @product e es degree hts ih =>
    have hle : ∀ t ∈ e :: es, degree t ≤ ((e :: es).map degree).sum :=
      fun t ht => List.single_le_sum (fun _ _ => Nat.zero_le _) _ (List.mem_map_of_mem ht)
    have hlowered : ∀ t ∈ e :: es, Lowered counts v (degree t) (t.derivative v).normalForm :=
      fun t ht => ih t ht ((hle t ht).trans_lt hd)
    rw [derivative]
    show Lowered counts v _
      (sum (productTerms [] ((e :: es).map fun t => (t, t.derivative v)))).normalForm
    constructor
    -- a product becomes a sum with one term for each factor
    · have hpairs : ∀ p ∈ (e :: es).map (fun t => (t, t.derivative v)),
          p.1.normalForm.degree v ≤ degree p.1 ∧
            Lowered counts v (degree p.1) p.2.normalForm :=
        List.forall_mem_map.2 fun t ht =>
          ⟨(hts t ht).degree_le hcounts ((hle t ht).trans_lt hd), hlowered t ht⟩
      have hterms := degree_productTerms_le hcounts hpairs [] (m := 0) le_rfl
      rw [List.map_map, Nat.zero_add] at hterms
      exact degree_sum_le (by omega) (hterms hd)
    · intro hzero
      refine isNull_sum hcounts (isNull_productTerms hcounts (List.forall_mem_map.2 ?_) [])
      exact fun t ht => (hlowered t ht).null (Nat.le_zero.1 (hzero ▸ hle t ht))
  | @quotient e ds d h hds ih =>
    have hdivisors : ∀ p ∈ ds.map (fun t => (t, t.derivative v)),
        p.1.NamesIn (· ≠ v) ∧ IsNull counts p.2.normalForm :=
      List.forall_mem_map.2 fun t ht => ⟨hds t ht, isNull_derivative hcounts (hds t ht)⟩
    have hdividend := ih hd
    rw [derivative]
    constructor
    · exact degree_quotientDerivative_le hcounts (by omega) hdivisors hdividend.degree
    · intro hzero
      exact isNull_quotientDerivative hcounts (fun p hp => (hdivisors p hp).2)
        (hdividend.null hzero)
  | @power b es m exponent h hes ih =>
    have hconstants : ∀ p ∈ es.map (fun t => (t, t.derivative v)),
        IsNull counts p.2.normalForm := by
      refine List.forall_mem_map.2 fun t ht => ?_
      obtain ⟨a, rfl, -⟩ := hes t ht
      rw [derivative, normalForm_num]
      exact isNull_zero hcounts
    rw [derivative]
    rcases exponents_cases hcounts hes with ⟨a, hmem, ha, -⟩ | hwhole
    · have hzero : ∃ p ∈ es.map (fun t => (t, t.derivative v)), ∃ a, p.1 = num a ∧ counts a 0 :=
        ⟨_, List.mem_map_of_mem hmem, a, rfl, ha⟩
      exact (isNull_powerDerivative hcounts hconstants (Or.inr hzero)).lowered _
    have hprod := one_le_prod fun t ht => (hwhole t ht).1
    have hbase : m < 2 ^ 53 := (Nat.le_mul_of_pos_right m hprod).trans_lt hd
    have hlowered := ih hbase
    -- a base of degree zero has no derivative, and neither have its powers
    rcases Nat.eq_zero_or_pos m with rfl | hm
    · exact (isNull_powerDerivative hcounts hconstants (Or.inl (hlowered.null rfl))).lowered _
    · constructor
      · exact degree_powerDerivative_le hcounts hwhole hm hd (h.degree_le hcounts hbase)
          hlowered.degree
      · intro hzero
        exact absurd hzero (Nat.mul_pos hm hprod).ne'

/-! ## Normal forms are polynomials again -/

omit [LawfulScalar α] in
/-- An expression without the variable is a polynomial of degree zero. -/
theorem exists_of_not_mem {e : Expr α} (h : v ∉ e.leafNames) :
    ∃ d : ℕ, (d : ℕ∞) ≤ e.toTree.degree v ∧ IsPolynomial counts v e d := by
  refine ⟨0, zero_le, .free fun x hx hxv => h ?_⟩
  rw [← hxv]
  exact hx

omit [LawfulScalar α] in
/-- Sums and differences take the highest degree of their terms. -/
theorem exists_additive {op : NaryOp} (hop : op = .add ∨ op = .sub) {e : Expr α}
    {es : List (Expr α)} (hfinite : (nary op e es).toTree.degree v ≠ ⊤)
    (ih : ∀ t ∈ e :: es, t.toTree.degree v ≠ ⊤ →
      ∃ d : ℕ, (d : ℕ∞) ≤ t.toTree.degree v ∧ IsPolynomial counts v t d) :
    ∃ d : ℕ, (d : ℕ∞) ≤ (nary op e es).toTree.degree v ∧
      IsPolynomial counts v (nary op e es) d := by
  obtain ⟨n, hn⟩ := ENat.ne_top_iff_exists.1 hfinite
  rw [toTree, ← List.map_cons] at hn
  have hterms := List.forall_mem_map.1 ((Tree.degree_additive_le_iff hop).1 hn.symm.le)
  choose! degree hle hts using fun t ht =>
    ih t ht (ne_top_of_le_ne_top (ENat.natCast_ne_top n) (hterms t ht))
  refine ⟨_, ?_, .additive degree hop hts⟩
  rw [toTree, ← List.map_cons, ← hn]
  have hdegrees : ∀ m ∈ (e :: es).map degree, m ≤ n :=
    List.forall_mem_map.2 fun t ht => by exact_mod_cast (hle t ht).trans (hterms t ht)
  exact_mod_cast List.max_le_of_forall_le _ n hdegrees

omit [LawfulScalar α] in
/-- Products add the degrees of their factors. -/
theorem exists_product {e : Expr α} {es : List (Expr α)}
    (hfinite : (nary .mul e es).toTree.degree v ≠ ⊤)
    (ih : ∀ t ∈ e :: es, t.toTree.degree v ≠ ⊤ →
      ∃ d : ℕ, (d : ℕ∞) ≤ t.toTree.degree v ∧ IsPolynomial counts v t d) :
    ∃ d : ℕ, (d : ℕ∞) ≤ (nary .mul e es).toTree.degree v ∧
      IsPolynomial counts v (nary .mul e es) d := by
  have hsum : (nary .mul e es).toTree.degree v =
      ((e :: es).map fun t => t.toTree.degree v).sum := by
    rw [toTree, ← List.map_cons, Tree.degree_mul, List.map_map]
    rfl
  have hterms : ∀ t ∈ e :: es, t.toTree.degree v ≤ (nary .mul e es).toTree.degree v := by
    intro t ht
    rw [hsum]
    exact List.single_le_sum (fun _ _ => zero_le) _ (List.mem_map_of_mem ht)
  choose! degree hle hts using fun t ht => ih t ht (ne_top_of_le_ne_top hfinite (hterms t ht))
  refine ⟨_, ?_, .product degree hts⟩
  rw [hsum, Nat.cast_list_sum, List.map_map]
  exact List.sum_le_sum hle

omit [LawfulScalar α] in
/-- In a power of finite degree all exponents are whole numbers. -/
theorem exists_power (hcounts : Counting counts) {b : Expr α} {es : List (Expr α)}
    (hmem : v ∈ (nary .pow b es).toTree.leafNames)
    (hfinite : (nary .pow b es).toTree.degree v ≠ ⊤)
    (ih : b.toTree.degree v ≠ ⊤ →
      ∃ d : ℕ, (d : ℕ∞) ≤ b.toTree.degree v ∧ IsPolynomial counts v b d) :
    ∃ d : ℕ, (d : ℕ∞) ≤ (nary .pow b es).toTree.degree v ∧
      IsPolynomial counts v (nary .pow b es) d := by
  rw [toTree] at hmem hfinite
  obtain ⟨-, hwhole⟩ := Tree.exists_of_degree_pow_ne_top hmem hfinite
  have hbase : b.toTree.degree v ≠ ⊤ :=
    ne_top_of_le_ne_top hfinite ((inherited_degree _).operand le_rfl _ (List.mem_cons_self ..))
  obtain ⟨d, hle, hb⟩ := ih hbase
  -- the degree of the power is finite, so the exponents are whole numbers
  choose! exponent _ hexponent hdegree using List.forall_mem_map.1 hwhole
  have hes : ∀ t ∈ es, ∃ a, t = num a ∧ counts a (exponent t) := by
    intro t ht
    have heq := toExpr_toTree t
    rw [hexponent t ht, Tree.toExpr] at heq
    exact ⟨_, (Except.ok.inj heq).symm, hcounts.ofNat _⟩
  have hprod : ((es.map toTree).map Tree.exponentDegree).prod = ((es.map exponent).prod : ℕ) := by
    rw [Nat.cast_list_prod, List.map_map, List.map_map]
    exact congrArg List.prod (List.map_congr_left hdegree)
  refine ⟨_, ?_, .power exponent hb hes⟩
  rw [toTree, Tree.degree_pow_of_mem hmem, hprod, Nat.cast_mul]
  exact mul_le_mul' (hle.trans (le_max_right _ _)) le_rfl

omit [LawfulScalar α] in
/-- An expression whose tree has a degree is a polynomial, of that degree at most. -/
theorem exists_isPolynomial (hcounts : Counting counts) {e : Expr α}
    (hfinite : e.toTree.degree v ≠ ⊤) :
    ∃ d : ℕ, (d : ℕ∞) ≤ e.toTree.degree v ∧ IsPolynomial counts v e d := by
  induction e using operands_induction with
  | num a => exact exists_of_not_mem (by rw [leafNames]; exact List.not_mem_nil)
  | var x =>
    by_cases hx : x = v
    · subst hx
      refine ⟨1, ?_, .self⟩
      rw [toTree, Tree.degree_var, if_pos rfl]
      exact le_rfl
    · exact exists_of_not_mem (by rw [leafNames, List.mem_singleton]; exact Ne.symm hx)
  | func f e ih =>
    by_cases hmem : v ∈ (func f e).toTree.leafNames
    · rw [toTree] at hfinite hmem
      rw [Tree.degree_node_of_mem hmem] at hfinite
      exact absurd rfl hfinite
    · exact exists_of_not_mem (by rwa [leafNames_toTree] at hmem)
  | nary op e es ihe ihes =>
    have hoperands := List.forall_mem_cons.2 ⟨ihe, ihes⟩
    -- without the variable the expression is a constant, whatever its form
    by_cases hmem : v ∈ (nary op e es).toTree.leafNames
    swap
    · exact exists_of_not_mem (by rwa [leafNames_toTree] at hmem)
    cases op with
    | add => exact exists_additive (Or.inl rfl) hfinite hoperands
    | sub => exact exists_additive (Or.inr rfl) hfinite hoperands
    | mul => exact exists_product hfinite hoperands
    | pow => exact exists_power hcounts hmem hfinite ihe
    | div =>
      rw [toTree, Tree.degree_div] at hfinite ⊢
      have hdivisors : ∀ u ∈ es.map toTree, u.degree v = 0 := by
        by_contra hne
        exact hfinite (if_neg hne)
      rw [if_pos hdivisors] at hfinite ⊢
      obtain ⟨d, hle, he⟩ := ihe hfinite
      refine ⟨d, hle, .quotient he fun t ht x hx hxv => ?_⟩
      refine Tree.degree_eq_zero_iff.1 (hdivisors _ (List.mem_map_of_mem ht)) ?_
      rw [leafNames_toTree, ← hxv]
      exact hx

/-! ## Derivatives of higher order -/

omit [LawfulScalar α] in
/-- Derivatives of a constant zero stay zero. -/
theorem nthDerivative_of_isNull (hcounts : Counting counts) {t : Tree α} (h : IsNull counts t)
    (n : ℕ) : ∃ a, t.nthDerivative v n = .ok (.num a) ∧ counts a 0 := by
  induction n generalizing t with
  | zero =>
    obtain ⟨a, rfl, ha⟩ := h
    refine ⟨a, ?_, ha⟩
    rw [Tree.nthDerivative, Tree.toExpr]
    show Except.ok (num a).toTree = _
    rw [toTree]
  | succ n ih =>
    obtain ⟨a, rfl, -⟩ := h
    have hnum : (num a).toTree = Tree.num a := by rw [toTree]
    rw [← hnum, nthDerivative_toTree_succ, derivative, normalForm_num]
    exact ih (isNull_zero hcounts)

/-- Above its degree the derivatives of a polynomial are zero. -/
theorem IsPolynomial.nthDerivative (hcounts : Counting counts) {e : Expr α} {n : ℕ}
    (h : IsPolynomial counts v e d) (hd : d < 2 ^ 53) (hn : d < n) :
    ∃ a, e.toTree.nthDerivative v n = .ok (.num a) ∧ counts a 0 := by
  induction n generalizing e d with
  | zero => exact absurd hn (Nat.not_lt_zero d)
  | succ n ih =>
    have hlowered := h.lowered hcounts hd
    rw [nthDerivative_toTree_succ]
    rcases Nat.eq_zero_or_pos d with rfl | hpos
    · exact nthDerivative_of_isNull hcounts (hlowered.null rfl) n
    · -- the normal form is a polynomial again, of a lower degree
      obtain ⟨e₁, he₁⟩ := isExpr_normalForm (e.derivative v)
      have hdegree : e₁.toTree.degree v ≤ (d - 1 : ℕ) := by
        rw [he₁]
        exact hlowered.degree
      obtain ⟨d₁, hle, h₁⟩ :=
        exists_isPolynomial hcounts (ne_top_of_le_ne_top (ENat.natCast_ne_top _) hdegree)
      have hd₁ : d₁ ≤ d - 1 := by exact_mod_cast hle.trans hdegree
      rw [← he₁]
      exact ih h₁ (by omega) (by omega)

/-- Constants may count by equality. -/
theorem counting_eq : Counting fun (a : α) n => a = Scalar.ofNat n where
  ofNat _ := rfl
  same {a n} h := by
    rw [h]
    exact LawfulScalar.same_refl _

/-- Constants may count up to the sign of zero. -/
theorem counting_same : Counting fun (a : α) n => Scalar.same a (Scalar.ofNat n) = true where
  ofNat _ := LawfulScalar.same_refl _
  same h := h

/-- The derivatives of a polynomial whose order is above its degree, taken one after another and
each simplified, are the constant zero, if the degree is below 2⁵³. Should an exponent be one of the
other constants that are the same as a whole number, as negative zero is, then so may be the
constant. -/
theorem nthDerivative_polynomial {e : Expr α} {n : ℕ} (hd : d < 2 ^ 53) (hn : d < n) :
    (e.IsPolynomial (fun a m => a = Scalar.ofNat m) v d →
      e.toTree.nthDerivative v n = .ok (.num (Scalar.ofNat 0))) ∧
    (e.IsPolynomial (fun a m => Scalar.same a (Scalar.ofNat m) = true) v d →
      ∃ a, e.toTree.nthDerivative v n = .ok (.num a) ∧ Scalar.same a (Scalar.ofNat 0) = true) := by
  constructor
  · intro h
    obtain ⟨a, hresult, rfl⟩ := h.nthDerivative counting_eq hd hn
    exact hresult
  · intro h
    exact h.nthDerivative counting_same hd hn

end

/-- The third derivative of `x ^ 2 * y - x / y` with respect to `x`, over doubles. -/
theorem nthDerivative_polynomial_square :
    2 < 2 ^ 53 ∧ 2 < 3 ∧
      (nary .sub (nary .mul (binary .pow (var "x") (num 2)) [var "y"])
        [binary .div (var "x") (var "y")] : Expr Float).IsPolynomial
          (fun a m => a = Scalar.ofNat m) "x" 2 ∧
      (nary .sub (nary .mul (binary .pow (var "x") (num 2)) [var "y"])
        [binary .div (var "x") (var "y")] : Expr Float).toTree.nthDerivative "x" 3 =
          .ok (.num 0) := by
  have hy : (var "y" : Expr Float).NamesIn (· ≠ "x") := by simp
  have hsquare : (binary .pow (var "x") (num 2) : Expr Float).IsPolynomial
      (fun a m => a = Scalar.ofNat m) "x" 2 := by
    refine .power (fun _ => 2) .self fun t ht => ?_
    exact ⟨2, List.mem_singleton.1 ht, rfl⟩
  have hproduct : (nary .mul (binary .pow (var "x") (num 2)) [var "y"] : Expr Float).IsPolynomial
      (fun a m => a = Scalar.ofNat m) "x" 2 := by
    let degree (t : Expr Float) : ℕ :=
      t.casesOn (fun _ => 0) (fun _ => 0) (fun _ _ _ => 2) fun _ _ => 0
    refine .product degree ?_
    exact List.forall_mem_cons.2 ⟨hsquare, List.forall_mem_singleton.2 (.free hy)⟩
  have hpolynomial : (nary .sub (nary .mul (binary .pow (var "x") (num 2)) [var "y"])
      [binary .div (var "x") (var "y")] : Expr Float).IsPolynomial
        (fun a m => a = Scalar.ofNat m) "x" 2 := by
    let degree (t : Expr Float) : ℕ :=
      t.casesOn (fun _ => 0) (fun _ => 1) (fun op _ _ => if op = .mul then 2 else 1) fun _ _ => 0
    refine .additive degree (Or.inr rfl) ?_
    refine List.forall_mem_cons.2 ⟨hproduct, List.forall_mem_singleton.2 ?_⟩
    exact .quotient .self (List.forall_mem_singleton.2 hy)
  have hdegree : 2 < 2 ^ 53 := by norm_num
  have horder : 2 < 3 := by norm_num
  exact ⟨hdegree, horder, hpolynomial, (nthDerivative_polynomial hdegree horder).1 hpolynomial⟩

end Fluxion.Expr

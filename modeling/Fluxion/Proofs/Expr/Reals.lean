import Fluxion.Tree.Operator
import Mathlib.Analysis.SpecialFunctions.Pow.Real

/-!
# The reals as numbers

The operations of `Scalar` on the reals, where the laws that doubles only come close to hold
exactly. Powers are `Real.rpow`. Outside its domain the logarithm has the values that `Real.log`
gives it, and a quotient by zero is zero; no result below says anything about those beyond that they
stay the same.
-/

namespace Fluxion

noncomputable instance : Scalar ℝ where
  ofNat n := n
  neg a := -a
  add a b := a + b
  sub a b := a - b
  mul a b := a * b
  div a b := a / b
  pow a b := a ^ b
  ln := Real.log
  sin := Real.sin
  cos := Real.cos
  near a b := decide (|a - b| < 1 / 10 ^ 7)
  same a b := decide (a = b)

namespace Scalar

@[simp] theorem ofNat_real (n : Nat) : (ofNat n : ℝ) = n := rfl

@[simp] theorem neg_real (a : ℝ) : neg a = -a := rfl

@[simp] theorem add_real (a b : ℝ) : add a b = a + b := rfl

@[simp] theorem sub_real (a b : ℝ) : sub a b = a - b := rfl

/-- The tolerance is taken exactly. -/
theorem near_real_iff (a b : ℝ) : near a b = true ↔ |a - b| < 1 / 10 ^ 7 := decide_eq_true_iff

/-- Whole numbers are near themselves only. -/
theorem near_natCast_iff (n m : ℕ) : near (n : ℝ) (m : ℝ) = true ↔ n = m := by
  rw [near_real_iff]
  constructor
  · intro h
    have hreal : |((n : ℤ) - (m : ℤ) : ℝ)| < 1 :=
      lt_trans (by exact_mod_cast h) (by norm_num)
    have hint : |(n : ℤ) - m| < 1 := by exact_mod_cast hreal
    have := Int.abs_lt_one_iff.1 hint
    omega
  · rintro rfl
    norm_num

end Scalar

namespace NaryOp

@[simp] theorem apply_add (a b : ℝ) : add.apply a b = a + b := rfl

@[simp] theorem apply_sub (a b : ℝ) : sub.apply a b = a - b := rfl

@[simp] theorem apply_mul (a b : ℝ) : mul.apply a b = a * b := rfl

@[simp] theorem apply_div (a b : ℝ) : div.apply a b = a / b := rfl

@[simp] theorem apply_pow (a b : ℝ) : pow.apply a b = a ^ b := rfl

/-! ## Chains of operands

What stands after the first operand may be gathered: the terms of a sum and subtrahends are added,
factors, divisors and exponents multiplied. -/

theorem foldl_add (a : ℝ) (as : List ℝ) : as.foldl NaryOp.add.apply a = a + as.sum := by
  induction as generalizing a with
  | nil => simp
  | cons b as ih =>
    show as.foldl NaryOp.add.apply (a + b) = a + (b :: as).sum
    rw [ih, List.sum_cons, add_assoc]

/-- Subtrahends can be added up first. -/
theorem foldl_sub (a : ℝ) (as : List ℝ) : as.foldl NaryOp.sub.apply a = a - as.sum := by
  induction as generalizing a with
  | nil => simp
  | cons b as ih =>
    show as.foldl NaryOp.sub.apply (a - b) = a - (b :: as).sum
    rw [ih, List.sum_cons, sub_sub]

theorem foldl_mul (a : ℝ) (as : List ℝ) : as.foldl NaryOp.mul.apply a = a * as.prod := by
  induction as generalizing a with
  | nil => simp
  | cons b as ih =>
    show as.foldl NaryOp.mul.apply (a * b) = a * (b :: as).prod
    rw [ih, List.prod_cons, mul_assoc]

/-- Divisors can be multiplied first. -/
theorem foldl_div (a : ℝ) (as : List ℝ) : as.foldl NaryOp.div.apply a = a / as.prod := by
  induction as generalizing a with
  | nil => simp
  | cons b as ih =>
    show as.foldl NaryOp.div.apply (a / b) = a / (b :: as).prod
    rw [ih, List.prod_cons, div_div]

/-- Powers of powers multiply their exponents where the base is not negative. -/
theorem foldl_pow {a : ℝ} (ha : 0 ≤ a) (as : List ℝ) :
    as.foldl NaryOp.pow.apply a = a ^ as.prod := by
  induction as generalizing a with
  | nil => simp
  | cons b as ih =>
    show as.foldl NaryOp.pow.apply (a ^ b) = a ^ (b :: as).prod
    rw [ih (Real.rpow_nonneg ha b), List.prod_cons, Real.rpow_mul ha]

/-- A product of whole numbers is whole. -/
theorem exists_natCast_prod {as : List ℝ} (h : ∀ b ∈ as, ∃ n : ℕ, b = n) :
    ∃ m : ℕ, as.prod = m := by
  induction as with
  | nil => exact ⟨1, by simp⟩
  | cons b as ih =>
    obtain ⟨⟨n, rfl⟩, has⟩ := List.forall_mem_cons.1 h
    obtain ⟨m, hm⟩ := ih has
    exact ⟨n * m, by rw [List.prod_cons, hm, Nat.cast_mul]⟩

/-- Whole exponents are multiplied whatever the base is. -/
theorem foldl_pow_whole (a : ℝ) {as : List ℝ} (h : ∀ b ∈ as, ∃ n : ℕ, b = n) :
    as.foldl NaryOp.pow.apply a = a ^ as.prod := by
  induction as generalizing a with
  | nil => simp
  | cons b as ih =>
    obtain ⟨⟨n, rfl⟩, has⟩ := List.forall_mem_cons.1 h
    obtain ⟨m, hm⟩ := exists_natCast_prod has
    show as.foldl NaryOp.pow.apply (a ^ (n : ℝ)) = a ^ ((n : ℝ) :: as).prod
    rw [ih (a ^ (n : ℝ)) has, List.prod_cons, hm, ← Nat.cast_mul, Real.rpow_natCast,
      Real.rpow_natCast, Real.rpow_natCast, pow_mul]

/-- Powers of a positive number are positive, one after another. -/
theorem foldl_pow_pos {a : ℝ} (ha : 0 < a) (as : List ℝ) : 0 < as.foldl NaryOp.pow.apply a := by
  rw [foldl_pow ha.le]
  exact Real.rpow_pos_of_pos ha _

end NaryOp

namespace Func

@[simp] theorem apply_ln (a : ℝ) : ln.apply a = Real.log a := rfl

@[simp] theorem apply_sin (a : ℝ) : sin.apply a = Real.sin a := rfl

@[simp] theorem apply_cos (a : ℝ) : cos.apply a = Real.cos a := rfl

end Func

end Fluxion

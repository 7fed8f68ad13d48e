import Fluxion.Proofs.Expr.Reals

/-!
# Laws of whole numbers

The few laws that doubles share with the reals: whole numbers are told from zero and one, those
below 2⁵³ are computed with exactly, and every number is the same constant as itself. Results about
simplification that need no more than these hold of both.
-/

namespace Fluxion

/-- Numbers that keep the laws of whole numbers as far as doubles do. -/
class LawfulScalar (α : Type) [Scalar α] : Prop where
  near_ofNat_zero_iff (n : Nat) :
    Scalar.near (Scalar.ofNat n : α) (Scalar.ofNat 0) = true ↔ n = 0
  near_ofNat_one_iff (n : Nat) :
    Scalar.near (Scalar.ofNat n : α) (Scalar.ofNat 1) = true ↔ n = 1
  sub_ofNat_one (n : Nat) :
    n + 1 < 2 ^ 53 → Scalar.sub (Scalar.ofNat (n + 1) : α) (Scalar.ofNat 1) = Scalar.ofNat n
  mul_ofNat (m n : Nat) :
    0 < m → 0 < n → m * n < 2 ^ 53 →
      Scalar.mul (Scalar.ofNat m : α) (Scalar.ofNat n) = Scalar.ofNat (m * n)
  same_refl (a : α) : Scalar.same a a = true
  near_of_same_zero (a : α) :
    Scalar.same a (Scalar.ofNat 0) = true →
      Scalar.near a (Scalar.ofNat 0) = true ∧ Scalar.near a (Scalar.ofNat 1) = false
  eq_of_same_ofNat (a : α) (n : Nat) :
    Scalar.same a (Scalar.ofNat (n + 1)) = true → a = Scalar.ofNat (n + 1)

instance : LawfulScalar ℝ where
  near_ofNat_zero_iff n := Scalar.near_natCast_iff n 0
  near_ofNat_one_iff n := Scalar.near_natCast_iff n 1
  sub_ofNat_one n _ := by
    show ((n + 1 : ℕ) : ℝ) - (1 : ℕ) = n
    push_cast
    ring
  mul_ofNat m n _ _ _ := (Nat.cast_mul m n).symm
  same_refl a := decide_eq_true rfl
  near_of_same_zero a h := by
    obtain rfl : a = Scalar.ofNat 0 := of_decide_eq_true h
    refine ⟨(Scalar.near_natCast_iff 0 0).2 rfl, Bool.eq_false_iff.2 fun h => ?_⟩
    cases (Scalar.near_natCast_iff 0 1).1 h
  eq_of_same_ofNat a n h := of_decide_eq_true h

end Fluxion

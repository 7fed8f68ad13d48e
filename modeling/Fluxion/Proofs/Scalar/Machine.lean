import Fluxion.Proofs.Scalar.Arithmetic

/-!
# Doubles of a machine

Sums, differences, products and quotients of doubles are fixed by their format. Powers, logarithms,
sines and cosines come from a library, which is free in the last digits and not in the special
cases. Here they are a parameter: `Machine m` are doubles with the functions `m`, and
`Machine .native` are doubles themselves. A library that keeps the special cases
(`Elementary.Lawful`) makes of doubles an instance of `RoundedScalar`.
-/

namespace Fluxion

/-- Powers, logarithms, sines and cosines. -/
structure Elementary where
  pow : Float → Float → Float
  ln : Float → Float
  sin : Float → Float
  cos : Float → Float

namespace Elementary

/-- The functions that doubles come with. -/
def native : Elementary := ⟨Float.pow, Float.log, Float.sin, Float.cos⟩

/-- The special cases. An exponent one or zero and a base one give exact results, also where the
other number is not a number; the other powers of zero, of an infinity and of what is not a number
are such numbers again; and no function tells zeros of different signs apart, but for the sign of
zero. -/
class Lawful (m : Elementary) : Prop where
  pow_one (a : Float) : m.pow a 1.0 = a
  pow_zero (a : Float) : m.pow a 0.0 = 1.0
  pow_neg_zero (a : Float) : m.pow a (-0.0) = 1.0
  one_pow (b : Float) : m.pow 1.0 b = 1.0
  pow_of_extreme {a b : Float} : b.isFinite = true → (b == 0.0) = false →
    ((a == 0.0) = true ∨ a.isFinite = false) →
      ((m.pow a b == 0.0) = true ∨ (m.pow a b).isFinite = false)
  ln_neg_zero : Scalar.same (m.ln (-0.0)) (m.ln 0.0) = true
  sin_neg_zero : Scalar.same (m.sin (-0.0)) (m.sin 0.0) = true
  cos_neg_zero : Scalar.same (m.cos (-0.0)) (m.cos 0.0) = true

/-- A library that is exact for squares and close where the argument is: to one for logarithms, to
zero for sines and cosines. -/
def coarse : Elementary where
  pow a b :=
    if b == 0.0 then 1.0
    else if b == 1.0 || a == 1.0 || a == 0.0 || !a.isFinite then a
    else a * a
  ln a := a - 1.0
  sin a := a
  cos _ := 1.0

instance : coarse.Lawful where
  pow_one a := rfl
  pow_zero a := rfl
  pow_neg_zero a := rfl
  one_pow b := by
    unfold coarse
    dsimp only
    cases b == 0.0 with
    | true => rfl
    | false => cases b == 1.0 <;> rfl
  pow_of_extreme {a b} _ hb h := by
    have ha : coarse.pow a b = a := by
      unfold coarse
      dsimp only
      rw [hb]
      rcases h with h | h <;> simp [h]
    rwa [ha]
  ln_neg_zero := rfl
  sin_neg_zero := rfl
  cos_neg_zero := rfl

end Elementary

/-- Doubles that are computed with these functions. -/
def Machine (_ : Elementary) : Type := Float

namespace Machine

variable {m : Elementary}

instance : DecidableEq (Machine m) := inferInstanceAs (DecidableEq Float)

instance : Scalar (Machine m) where
  ofNat := Float.ofNat
  neg := Float.neg
  add := Float.add
  sub := Float.sub
  mul := Float.mul
  div := Float.div
  pow := m.pow
  ln := m.ln
  sin := m.sin
  cos := m.cos
  near := @Scalar.near Float _
  same := @Scalar.same Float _

/-- With the functions that doubles come with, these are doubles. -/
theorem scalar_native :
    (inferInstance : Scalar (Machine .native)) = (inferInstance : Scalar Float) := rfl

instance : LawfulScalar (Machine m) where
  near_ofNat_zero_iff := Doubles.near_ofNat_zero_iff
  near_ofNat_one_iff := Doubles.near_ofNat_one_iff
  sub_ofNat_one := Doubles.sub_ofNat_one
  mul_ofNat := Doubles.mul_ofNat
  same_refl := Doubles.same_refl
  near_of_same_zero := Doubles.near_of_same_zero
  eq_of_same_ofNat := Doubles.eq_of_same_ofNat

/-- All operations but powers are those of doubles. -/
theorem apply_eq {op : NaryOp} (hop : op ≠ .pow) (a b : Machine m) :
    op.apply a b = @NaryOp.apply Float _ op a b := by
  cases op with
  | add | sub | mul | div => rfl
  | pow => exact absurd rfl hop

/-- The sign of a zero is seen at most in the sign of a zero. -/
theorem func_zero [m.Lawful] (f : Func) {a : Machine m}
    (h : Scalar.same a (Scalar.ofNat 0) = true) :
    Scalar.same (f.apply a) (f.apply (Scalar.ofNat 0)) = true := by
  rcases Doubles.eq_zero_of_same h with rfl | rfl
  · exact Doubles.same_refl _
  cases f with
  | ln => exact Elementary.Lawful.ln_neg_zero
  | sin => exact Elementary.Lawful.sin_neg_zero
  | cos => exact Elementary.Lawful.cos_neg_zero

/-- Operands that are the same give function values that are the same. -/
theorem func_congr [m.Lawful] (f : Func) {a b : Machine m} (h : Scalar.same a b = true) :
    Scalar.same (f.apply a) (f.apply b) = true := by
  cases hzero : Scalar.same a (Scalar.ofNat 0) with
  | false =>
    rw [Doubles.eq_of_same h hzero]
    exact Doubles.same_refl _
  | true =>
    have hb : Scalar.same b (Scalar.ofNat 0) = true :=
      Doubles.same_trans (Doubles.same_symm h) hzero
    exact Doubles.same_trans (func_zero f hzero) (Doubles.same_symm (func_zero f hb))

instance [m.Lawful] : RoundedScalar (Machine m) where
  IsFinite a := Float.isFinite a = true
  same_symm := Doubles.same_symm
  same_trans := Doubles.same_trans
  eq_of_same := Doubles.eq_of_same
  isFinite_of_same := Doubles.isFinite_of_same
  near_of_same := Doubles.near_of_same
  isFinite_left hop hb h := by
    rw [apply_eq hop] at h
    exact Doubles.isFinite_apply_left hop hb h
  apply_congr hop ha hb h := by
    rw [apply_eq hop] at h ⊢
    rw [apply_eq hop]
    exact Doubles.apply_congr hop ha hb h
  apply_neutral hop ha hb := by
    rw [apply_eq hop]
    exact Doubles.apply_neutral hop ha hb
  neutral_apply {op _ _} hop hb ha := by
    have hpow : op ≠ .pow := by rintro rfl; cases hop
    rw [apply_eq hpow]
    exact Doubles.neutral_apply hop hb ha
  mul_of_zero := Doubles.mul_of_zero
  div_of_zero := Doubles.div_of_zero
  pow_one := Elementary.Lawful.pow_one
  pow_zero {a b} h := by
    rcases Doubles.eq_zero_of_same h with rfl | rfl
    · exact Elementary.Lawful.pow_zero a
    · exact Elementary.Lawful.pow_neg_zero a
  one_pow := Elementary.Lawful.one_pow
  pow_of_extreme {a b} hb hzero h := by
    have hzeros : ∀ c : Machine m, Scalar.same c (Scalar.ofNat 0) = @BEq.beq Float _ c 0.0 :=
      Doubles.same_zero
    rw [hzeros, Bool.not_eq_true] at h ⊢
    rw [hzeros] at hzero
    exact Elementary.Lawful.pow_of_extreme hb hzero h
  func_congr := func_congr

end Machine

end Fluxion

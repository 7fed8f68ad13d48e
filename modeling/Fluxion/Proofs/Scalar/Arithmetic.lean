import Fluxion.Proofs.Scalar.Doubles
import Fluxion.Proofs.Scalar.Rounded

/-!
# Sums, differences, products and quotients of doubles

The laws of `RoundedScalar` for the four operations that are computed on the bits of a double. Most
are read off the cases that are told apart before anything is rounded: zeros, infinities and what is
not a number. That one is neutral is a matter of rounding: the mantissa of a double fits its
exponent (`unpack_canonical`), so a product with the mantissa of one is shifted back to where it
came from (`roundWithAccuracy_shifted`).
-/

namespace Fluxion.Doubles

open Float.Model Float.Model.UnpackedFloat

/-! ## Mantissas that fit their exponents -/

/-- The exponent is the one that rounding to 53 bits gives to the mantissa. -/
def Canonical (m : Nat) (e : Int) : Prop := max ((m.log2 : Int) + e - 52) (-1074) = e

/-- Rounding leaves the exponent of a mantissa that fits it. -/
theorem Canonical.target {m : Nat} {e : Int} (h : Canonical m e) :
    Format.binary64.targetExponent (totalExponent m e) = e := by
  rw [Canonical] at h
  rw [targetExponent_eq, totalExponent]
  omega

theorem canonical_of_components {s : Sign} {b : BitVec 11} {f : BitVec 52} {s' : Sign} {m : Nat}
    {e : Int} {h : 0 < m}
    (hunpack : UnpackedFloat.unpack Format.binary64 (packComponents Format.binary64 s b f) =
      .finite s' m e h) : Canonical m e := by
  have hf : f.toNat < 2 ^ 52 := f.isLt
  rw [UnpackedFloat.unpack] at hunpack
  simp only [unpackMantissa_packComponents, unpackExponent_packComponents] at hunpack
  split at hunpack
  · split at hunpack <;> cases hunpack
  split at hunpack
  · next hlow =>
    split at hunpack
    · cases hunpack
    · -- below the normal doubles the exponent is the least
      next hzero =>
      cases hunpack
      have hpos : f.toNat ≠ 0 := fun h => hzero (BitVec.eq_of_toNat_eq h)
      have hlog : f.toNat.log2 < 52 := (Nat.log2_lt hpos).2 hf
      subst hlow
      show max ((f.toNat.log2 : Int) + -1074 - 52) (-1074) = -1074
      omega
  · next hlow =>
    cases hunpack
    have hb : b.toNat ≠ 0 := fun h => hlow (BitVec.eq_of_toNat_eq h)
    have hhidden := toNat_hidden f
    have hlog : (1#1 ++ f).toNat.log2 = 52 :=
      (Nat.log2_eq_iff (by omega)).2 ⟨by omega, by omega⟩
    show max (((1#1 ++ f).toNat.log2 : Int) + ((b.toNat : Int) - (1023 + 52)) - 52) (-1074) =
      (b.toNat : Int) - (1023 + 52)
    rw [hlog]
    omega

/-- The mantissa and the exponent of a double fit. -/
theorem unpack_canonical {x : Float.Model} {s : Sign} {m : Nat} {e : Int} {h : 0 < m}
    (hx : x.unpack = .finite s m e h) : Canonical m e := by
  have hx : UnpackedFloat.unpack Format.binary64 x.toBits.toBitVec = .finite s m e h := hx
  rw [← packComponents_unpack x.toBits.toBitVec] at hx
  exact canonical_of_components hx

/-- Zero bits that a fitting mantissa is written with are rounded away. -/
theorem roundWithAccuracy_shifted {s : Sign} {m : Nat} {e : Int} (hm : 0 < m) (h : Canonical m e)
    (k : Nat) :
    roundWithAccuracy Format.binary64 s (m * 2 ^ k) (e - k) .exact = .finite s m e hm := by
  have htotal : totalExponent (m * 2 ^ k) (e - k) = totalExponent m e := by
    rw [totalExponent, totalExponent, log2_mul_twoPow hm]
    omega
  have hk : (Format.binary64.targetExponent (totalExponent (m * 2 ^ k) (e - k)) - (e - k)).toNat =
      k := by
    rw [htotal, h.target]
    omega
  -- the zero bits are shifted out, and nothing is left to round
  have hfirst : shiftToTargetExponent Format.binary64 (m * 2 ^ k) (e - k) .exact =
      (unshifted m, e) := by
    rw [shiftToTargetExponent_eq _ _ hk, unshifted_shiftRight]
    congr 1
    omega
  have hzero : (Format.binary64.targetExponent (totalExponent m e) - e).toNat = 0 := by
    rw [h.target]
    omega
  have hsecond : shiftToTargetExponent Format.binary64 (unshifted m).roundedMantissa e .exact =
      (unshifted m, e) := by
    show shiftToTargetExponent Format.binary64 m e .exact = _
    rw [shiftToTargetExponent_eq _ _ hzero]
    exact congrArg (_, ·) (Int.add_zero e)
  simp only [roundWithAccuracy, hfirst, hsecond]
  exact dif_neg hm.ne'

theorem one_eq : whole 1 Nat.one_pos = .finite .positive (2 ^ 52) (-52) (Nat.two_pow_pos 52) := rfl

/-- One is neutral to a number whose mantissa fits. -/
theorem mul_one {s : Sign} {m : Nat} {e : Int} {hm : 0 < m} (h : Canonical m e) :
    UnpackedFloat.mul Format.binary64 (.finite s m e hm) (whole 1 Nat.one_pos) =
      .finite s m e hm := by
  have hsign : s * .positive = s := by cases s <;> rfl
  rw [one_eq, mul_finite, hsign]
  exact roundWithAccuracy_shifted hm h 52

/-- To multiply by one is to shift the mantissa there and back. -/
theorem one_mul {s : Sign} {m : Nat} {e : Int} {hm : 0 < m} (h : Canonical m e) :
    UnpackedFloat.mul Format.binary64 (whole 1 Nat.one_pos) (.finite s m e hm) =
      .finite s m e hm := by
  have hsign : .positive * s = s := by cases s <;> rfl
  have hexponent : -52 + e = e - (52 : Nat) := by omega
  rw [one_eq, mul_finite, hsign, Nat.mul_comm, hexponent]
  exact roundWithAccuracy_shifted hm h 52

theorem div_finite {s s' : Sign} {m m' : Nat} {e e' : Int} {h : 0 < m} {h' : 0 < m'} :
    UnpackedFloat.div Format.binary64 (.finite s m e h) (.finite s' m' e' h') =
      roundWithAccuracy Format.binary64 (s / s') (divCore Format.binary64 m e m' e').1
        (divCore Format.binary64 m e m' e').2.1 (divCore Format.binary64 m e m' e').2.2 := rfl

/-- To divide by one is to shift the mantissa there and back. -/
theorem div_one {s : Sign} {m : Nat} {e : Int} {hm : 0 < m} (h : Canonical m e) :
    UnpackedFloat.div Format.binary64 (.finite s m e hm) (whole 1 Nat.one_pos) =
      .finite s m e hm := by
  have hsign : s / .positive = s := by cases s <;> rfl
  -- the dividend is written with zero bits enough for the quotient to have a full mantissa
  obtain ⟨k, hk⟩ : ∃ k : Nat, min (e - -52)
      (Format.binary64.targetExponent (totalExponent m e - totalExponent (2 ^ 52) (-52))) =
        e - k := by
    have hone : totalExponent (2 ^ 52) (-52) = 1 := by rw [totalExponent, Nat.log2_two_pow]; rfl
    rw [Canonical] at h
    rw [hone, targetExponent_eq, totalExponent]
    exact ⟨(e - min (e - -52) (max ((m.log2 : Int) + 1 + e - 1 - 53) (-1074))).toNat, by omega⟩
  have hshift : (e - -52 - (e - k)).toNat = k + 52 := by omega
  have hcore : divCore Format.binary64 m e (2 ^ 52) (-52) = (m * 2 ^ k, e - k, .exact) := by
    have hmantissa : m <<< (k + 52) = m * 2 ^ k * 2 ^ 52 := by
      rw [Nat.shiftLeft_eq, Nat.pow_add, Nat.mul_assoc]
    simp only [divCore, hk, hshift, hmantissa, Nat.mul_div_cancel _ (Nat.two_pow_pos 52),
      Nat.mul_mod_left]
    rfl
  rw [one_eq, div_finite, hsign, hcore]
  exact roundWithAccuracy_shifted hm h k

/-! ## Doubles that are the same -/

/-- A zero of either sign. -/
def IsZero (x : UnpackedFloat) : Prop := ∃ s, x = .zero s

/-- Equal, or zeros both. -/
def Alike (x y : UnpackedFloat) : Prop := x = y ∨ IsZero x ∧ IsZero y

theorem alike_zeros (s s' : Sign) : Alike (.zero s) (.zero s') := .inr ⟨⟨s, rfl⟩, s', rfl⟩

theorem Alike.symm {x y : UnpackedFloat} (h : Alike x y) : Alike y x := h.imp Eq.symm And.symm

/-- A zero is alike to no number but zeros. -/
theorem Alike.trans {x y z : UnpackedFloat} (hxy : Alike x y) (hyz : Alike y z) : Alike x z := by
  rcases hxy with rfl | ⟨hx, hy⟩
  · exact hyz
  rcases hyz with rfl | ⟨-, hz⟩
  · exact .inr ⟨hx, hy⟩
  · exact .inr ⟨hx, hz⟩

/-- What compares equal is equal, or zero with either sign. -/
theorem alike_of_compare {x y : UnpackedFloat} (h : x.compare y = some .eq) : Alike x y := by
  cases x with
  | notANumber => cases h
  | zero s => exact .inr ⟨⟨s, rfl⟩, by
      cases y with
      | zero s' => exact ⟨s', rfl⟩
      | notANumber => cases h
      | infinity s' | finite s' => cases s' <;> cases h⟩
  | infinity s =>
    refine .inl ?_
    cases y with
    | infinity s' => cases s <;> cases s' <;> first | rfl | cases h
    | notANumber => cases s <;> cases h
    | zero s' | finite s' => cases s <;> cases h
  | finite s m e hm =>
    refine .inl ?_
    cases y with
    | finite s' m' e' hm' =>
      -- two finite numbers compare by sign, then by exponent and mantissa
      have hthen : s = s' ∧ (compare e e').then (compare m m') = .eq := by
        cases s <;> cases s'
        · exact ⟨rfl, Ordering.swap_eq_eq.1 (Option.some.inj h)⟩
        · cases h
        · cases h
        · exact ⟨rfl, Option.some.inj h⟩
      obtain ⟨rfl, hthen⟩ := hthen
      obtain ⟨he, hm⟩ := Ordering.then_eq_eq.1 hthen
      obtain rfl := compare_eq_iff_eq.1 he
      obtain rfl := compare_eq_iff_eq.1 hm
      rfl
    | notANumber => cases s <;> cases h
    | infinity s' | zero s' => cases s <;> cases s' <;> cases h

theorem eq_notANumber {x : UnpackedFloat} (h : x.isNaN = true) : x = .notANumber := by
  cases x with
  | notANumber => rfl
  | infinity s | zero s | finite s => cases h

/-- Doubles are the same if they are equal or zeros both. -/
theorem same_iff_alike (a b : Float) :
    Scalar.same a b = true ↔ Alike a.toModel.unpack b.toModel.unpack := by
  rw [same_iff]
  constructor
  · rintro (h | ⟨ha, hb⟩)
    · exact alike_of_compare h
    · exact .inl ((eq_notANumber ha).trans (eq_notANumber hb).symm)
  · rintro (h | ⟨⟨s, ha⟩, s', hb⟩)
    · rw [h]
      exact (compare_self _).imp_right fun h => ⟨h, h⟩
    · rw [ha, hb]
      exact .inl rfl

theorem unpack_pack_zero (s : Sign) : (Float.Model.pack (.zero s)).unpack = .zero s := by
  cases s <;> rfl

theorem unpack_pack_infinity (s : Sign) :
    (Float.Model.pack (.infinity s)).unpack = .infinity s := by
  cases s <;> rfl

theorem Alike.pack {x y : UnpackedFloat} (h : Alike x y) :
    Alike (Float.Model.pack x).unpack (Float.Model.pack y).unpack := by
  rcases h with rfl | ⟨⟨s, rfl⟩, s', rfl⟩
  · exact .inl rfl
  · exact .inr ⟨⟨s, unpack_pack_zero s⟩, s', unpack_pack_zero s'⟩

/-- What is finite in the end was so before it was packed. -/
theorem isFinite_of_pack {x : UnpackedFloat} (h : (Float.Model.pack x).unpack.isFinite = true) :
    x.isFinite = true := by
  cases x with
  | notANumber => cases h
  | infinity s => rw [unpack_pack_infinity] at h; cases h
  | zero s | finite s => rfl

/-! ## The operations before they are packed -/

/-- The exact operation, rounded to 53 bits; powers apart. -/
def operation : NaryOp → UnpackedFloat → UnpackedFloat → UnpackedFloat
  | .add => UnpackedFloat.add Format.binary64
  | .sub => UnpackedFloat.sub Format.binary64
  | .mul => UnpackedFloat.mul Format.binary64
  | .div => UnpackedFloat.div Format.binary64
  | .pow => fun _ _ => .notANumber

/-- The operations on doubles are those on their unpacked numbers. -/
theorem apply_eq {op : NaryOp} (hop : op ≠ .pow) (a b : Float) :
    (op.apply a b).toModel =
      Float.Model.pack (operation op a.toModel.unpack b.toModel.unpack) := by
  cases op with
  | add | sub | mul | div => rfl
  | pow => exact absurd rfl hop

/-- A finite result with a finite second operand has a finite first. -/
theorem isFinite_operation_left {op : NaryOp} {x y : UnpackedFloat} (hy : y.isFinite = true)
    (h : (operation op x y).isFinite = true) : x.isFinite = true := by
  cases x with
  | zero s | finite s => rfl
  | notANumber => cases op <;> cases h
  | infinity s =>
    cases y with
    | notANumber | infinity s' => cases hy
    | zero s' | finite s' => cases op <;> cases h

theorem Alike.isFinite {x y : UnpackedFloat} (h : Alike x y) (hx : x.isFinite = true) :
    y.isFinite = true := by
  rcases h with rfl | ⟨-, s, rfl⟩
  · exact hx
  · rfl

/-- The sign of a zero on the left is seen at most in the sign of a zero. -/
theorem operation_left (op : NaryOp) {x x' : UnpackedFloat} (h : Alike x x') (y : UnpackedFloat) :
    Alike (operation op x y) (operation op x' y) := by
  rcases h with rfl | ⟨⟨s, rfl⟩, s', rfl⟩
  · exact .inl rfl
  cases y with
  | notANumber => cases op <;> exact .inl rfl
  | infinity t => cases op with
    | add | sub | mul | pow => exact .inl rfl
    | div => exact alike_zeros _ _
  | finite t m e hm => cases op with
    | add | sub | pow => exact .inl rfl
    | mul | div => exact alike_zeros _ _
  | zero t => cases op with
    | add | sub => cases s <;> cases s' <;> cases t <;> exact alike_zeros _ _
    | mul => exact alike_zeros _ _
    | div | pow => exact .inl rfl

/-- So is the sign of a zero on the right, unless something is divided by it. -/
theorem operation_right (op : NaryOp) (x : UnpackedFloat) {y y' : UnpackedFloat} (h : Alike y y')
    (hfinite : (operation op x y).isFinite = true) :
    Alike (operation op x y) (operation op x y') := by
  rcases h with rfl | ⟨⟨s, rfl⟩, s', rfl⟩
  · exact .inl rfl
  cases op with
  | add | sub =>
    cases x with
    | notANumber | infinity t | finite t => exact .inl rfl
    | zero t => cases s <;> cases s' <;> cases t <;> exact alike_zeros _ _
  | mul =>
    cases x with
    | notANumber | infinity t => exact .inl rfl
    | zero t | finite t => exact alike_zeros _ _
  | div => cases x <;> cases hfinite
  | pow => cases hfinite

/-- The neutral number on the right changes nothing but the sign of a zero. -/
theorem operation_neutral {op : NaryOp} (hop : op ≠ .pow) {x : Float.Model}
    (hx : x.unpack.isFinite = true) :
    Alike (operation op x.unpack (Float.ofNat op.neutral).toModel.unpack) x.unpack := by
  cases hunpack : x.unpack with
  | notANumber | infinity t => rw [hunpack] at hx; cases hx
  | zero t => cases op with
    | add | sub => cases t <;> exact alike_zeros _ _
    | mul | div => exact alike_zeros _ _
    | pow => exact absurd rfl hop
  | finite t m e hm =>
    have hcanonical := unpack_canonical hunpack
    cases op with
    | add | sub => exact .inl rfl
    | mul => exact .inl (mul_one hcanonical)
    | div => exact .inl (div_one hcanonical)
    | pow => exact absurd rfl hop

/-- The neutral number on the left leaves a finite number, up to the sign of zero. -/
theorem neutral_operation {op : NaryOp} (hop : op.commutes = true) {x : Float.Model}
    (hx : x.unpack.isFinite = true) :
    Alike (operation op (Float.ofNat op.neutral).toModel.unpack x.unpack) x.unpack := by
  cases hunpack : x.unpack with
  | notANumber | infinity t => rw [hunpack] at hx; cases hx
  | zero t => cases op with
    | add => cases t <;> exact alike_zeros _ _
    | mul => exact alike_zeros _ _
    | sub | div | pow => cases hop
  | finite t m e hm => cases op with
    | add => exact .inl rfl
    | mul => exact .inl (one_mul (unpack_canonical hunpack))
    | sub | div | pow => cases hop

/-- A product with a zero is zero, unless the other factor is infinite. -/
theorem isZero_mul {x y : UnpackedFloat} (hzero : IsZero x ∨ IsZero y)
    (h : (UnpackedFloat.mul Format.binary64 x y).isFinite = true) :
    IsZero (UnpackedFloat.mul Format.binary64 x y) := by
  rcases hzero with ⟨s, rfl⟩ | ⟨s, rfl⟩
  · cases y with
    | notANumber | infinity t => cases h
    | zero t | finite t => exact ⟨_, rfl⟩
  · cases x with
    | notANumber | infinity t => cases h
    | zero t | finite t => exact ⟨_, rfl⟩

/-- A quotient of zero is zero, unless the divisor is zero too. -/
theorem isZero_div {x y : UnpackedFloat} (hzero : IsZero x)
    (h : (UnpackedFloat.div Format.binary64 x y).isFinite = true) :
    IsZero (UnpackedFloat.div Format.binary64 x y) := by
  obtain ⟨s, rfl⟩ := hzero
  cases y with
  | notANumber | zero t => cases h
  | infinity t | finite t => exact ⟨_, rfl⟩

/-! ## The laws -/

section

variable {op : NaryOp} {a a' b b' : Float}

theorem same_symm (h : Scalar.same a b = true) : Scalar.same b a = true :=
  (same_iff_alike b a).2 ((same_iff_alike a b).1 h).symm

theorem same_trans {c : Float} (hab : Scalar.same a b = true) (hbc : Scalar.same b c = true) :
    Scalar.same a c = true :=
  (same_iff_alike a c).2 (((same_iff_alike a b).1 hab).trans ((same_iff_alike b c).1 hbc))

theorem isFinite_of_same (h : Scalar.same a b = true) (ha : a.isFinite = true) :
    b.isFinite = true :=
  ((same_iff_alike a b).1 h).isFinite ha

/-- The same as zero are the zeros of either sign. -/
theorem same_zero_iff : Scalar.same a (Scalar.ofNat 0) = true ↔ IsZero a.toModel.unpack := by
  refine (same_iff_alike a (Float.ofNat 0)).trans ⟨?_, fun h => .inr ⟨h, .positive, unpack_zero⟩⟩
  rintro (h | ⟨h, -⟩)
  · exact ⟨.positive, h⟩
  · exact h

theorem eq_of_same (h : Scalar.same a b = true) (hzero : Scalar.same a (Scalar.ofNat 0) = false) :
    a = b := by
  rcases (same_iff_alike a b).1 h with h | ⟨h, -⟩
  · exact eq_of_toModel (unpack_injective h)
  · rw [same_zero_iff.2 h] at hzero
    cases hzero

theorem same_zero (a : Float) : Scalar.same a (Scalar.ofNat 0) = (a == 0.0) := by
  show (a == 0.0 || (a.isNaN && false)) = (a == 0.0)
  rw [Bool.and_false, Bool.or_false]

theorem eq_zero_of_same (h : Scalar.same a (Scalar.ofNat 0) = true) : a = 0.0 ∨ a = -0.0 := by
  obtain ⟨s, hs⟩ := same_zero_iff.1 h
  have ha : a = Float.ofModel (Float.Model.pack (.zero s)) :=
    eq_of_toModel (by rw [← hs, pack_unpack])
  cases s with
  | positive => exact .inl ha
  | negative => exact .inr ha

/-- A result that is zero before it is packed is the same as zero. -/
theorem same_zero_of_pack {x : UnpackedFloat} (ha : a.toModel = Float.Model.pack x)
    (hx : IsZero x) : Scalar.same a (Scalar.ofNat 0) = true := by
  obtain ⟨s, rfl⟩ := hx
  rw [same_zero_iff, ha]
  exact ⟨s, unpack_pack_zero s⟩

/-- A finite number less itself is zero. -/
theorem sub_self {x : UnpackedFloat} (hx : x.isFinite = true) :
    UnpackedFloat.sub Format.binary64 x x = .zero .positive := by
  cases x with
  | notANumber | infinity s => cases hx
  | zero s => cases s <;> rfl
  | finite s m e hm =>
    rw [sub_finite, Int.sub_self]
    rfl

/-- Finite doubles that are the same are not apart. -/
theorem near_of_same (ha : a.isFinite = true) (h : Scalar.same a b = true) :
    Scalar.near a b = true := by
  have hsub : Alike (UnpackedFloat.sub Format.binary64 a.toModel.unpack a.toModel.unpack)
      (UnpackedFloat.sub Format.binary64 a.toModel.unpack b.toModel.unpack) :=
    operation_right .sub _ ((same_iff_alike a b).1 h) (by
      show (UnpackedFloat.sub Format.binary64 _ _).isFinite = true
      rw [sub_self ha]
      rfl)
  rw [sub_self ha] at hsub
  obtain ⟨s, hs⟩ : IsZero (UnpackedFloat.sub Format.binary64 a.toModel.unpack b.toModel.unpack) :=
    hsub.elim (fun h => ⟨.positive, h.symm⟩) And.right
  have hzero : a - b = Float.ofModel (Float.Model.pack (.zero s)) :=
    eq_of_toModel (congrArg Float.Model.pack hs)
  show decide (Float.abs (a - b) < tolerance) = true
  rw [hzero]
  cases s <;> rfl

/-- A finite result with a finite second operand has a finite first, for doubles as they are. -/
theorem isFinite_apply_left (hop : op ≠ .pow) (hb : b.isFinite = true)
    (h : (op.apply a b).isFinite = true) : a.isFinite = true := by
  have h : (op.apply a b).toModel.unpack.isFinite = true := h
  rw [apply_eq hop] at h
  exact isFinite_operation_left hb (isFinite_of_pack h)

/-- Operands that are the same give results that are the same, if one is finite. The sign of an
infinite quotient depends on that of a zero divisor. -/
theorem apply_congr (hop : op ≠ .pow) (ha : Scalar.same a a' = true) (hb : Scalar.same b b' = true)
    (h : (op.apply a b).isFinite = true) :
    Scalar.same (op.apply a b) (op.apply a' b') = true := by
  have h : (op.apply a b).toModel.unpack.isFinite = true := h
  rw [apply_eq hop] at h
  have hleft := operation_left op ((same_iff_alike a a').1 ha) b.toModel.unpack
  have hright := operation_right op a'.toModel.unpack ((same_iff_alike b b').1 hb)
    (hleft.isFinite (isFinite_of_pack h))
  rw [same_iff_alike, apply_eq hop, apply_eq hop]
  exact (hleft.trans hright).pack

/-- The neutral number on the right leaves a finite number, up to the sign of zero. -/
theorem apply_neutral (hop : op ≠ .pow) (ha : a.isFinite = true)
    (hb : Scalar.same b (Scalar.ofNat op.neutral) = true) :
    Scalar.same (op.apply a b) a = true := by
  have hneutral := operation_neutral hop ha
  have hright := operation_right op a.toModel.unpack ((same_iff_alike _ _).1 hb).symm
    (hneutral.symm.isFinite ha)
  have halike := (hright.symm.trans hneutral).pack
  rw [pack_unpack] at halike
  rwa [same_iff_alike, apply_eq hop]

/-- The neutral number on the left leaves a finite number if the operands may be exchanged. -/
theorem neutral_apply (hop : op.commutes = true) (hb : b.isFinite = true)
    (ha : Scalar.same a (Scalar.ofNat op.neutral) = true) :
    Scalar.same (op.apply a b) b = true := by
  have hpow : op ≠ .pow := by rintro rfl; cases hop
  have hleft := operation_left op ((same_iff_alike _ _).1 ha) b.toModel.unpack
  have halike := (hleft.trans (neutral_operation hop hb)).pack
  rw [pack_unpack] at halike
  rwa [same_iff_alike, apply_eq hpow]

/-- A finite product with a zero is the same as zero. -/
theorem mul_of_zero (h : (Float.mul a b).isFinite = true)
    (hzero : Scalar.same a (Scalar.ofNat 0) = true ∨ Scalar.same b (Scalar.ofNat 0) = true) :
    Scalar.same (Float.mul a b) (Scalar.ofNat 0) = true :=
  same_zero_of_pack rfl
    (isZero_mul (hzero.imp same_zero_iff.1 same_zero_iff.1) (isFinite_of_pack h))

theorem div_of_zero (h : (Float.div a b).isFinite = true)
    (ha : Scalar.same a (Scalar.ofNat 0) = true) :
    Scalar.same (Float.div a b) (Scalar.ofNat 0) = true :=
  same_zero_of_pack rfl (isZero_div (same_zero_iff.1 ha) (isFinite_of_pack h))

end

end Fluxion.Doubles

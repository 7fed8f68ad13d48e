import Fluxion.Proofs.Scalar.Lawful
import Mathlib

/-!
# Whole numbers as doubles

Doubles keep the laws of `LawfulScalar`. A positive whole number below 2⁵³ is a mantissa of 53 bits
at an exponent (`whole`), and rounding gives exactly that for every way of writing it as a mantissa
and a negative exponent (`round_whole`). Larger whole numbers are rounded, but to a number with a
full mantissa at an exponent that is not less (`round_large`), which is all it takes to tell them
from zero and one.
-/

namespace Fluxion.Doubles

open Float.Model Float.Model.UnpackedFloat

/-! ## Shifts -/

theorem shiftRight_succ (m : ExtendedMantissa) (k : Nat) :
    m >>> (k + 1) = (m >>> k).shiftRightOne := rfl

theorem mantissa_shiftRight (m : ExtendedMantissa) (k : Nat) :
    (m >>> k).mantissa = m.mantissa / 2 ^ k := by
  induction k with
  | zero => exact (Nat.div_one _).symm
  | succ k ih =>
    show (m >>> k).mantissa / 2 = _
    rw [ih, Nat.div_div_eq_div_mul, Nat.pow_succ]

/-- A mantissa of which nothing was shifted out. -/
def unshifted (m : Nat) : ExtendedMantissa := ⟨m, false, false⟩

/-- Zero bits are shifted out without loss. -/
theorem unshifted_shiftRight (m k : Nat) : unshifted (m * 2 ^ k) >>> k = unshifted m := by
  induction k generalizing m with
  | zero => rw [Nat.pow_zero, Nat.mul_one]; rfl
  | succ k ih =>
    have hm : m * 2 ^ (k + 1) = m * 2 * 2 ^ k := by rw [Nat.pow_succ]; ring
    rw [shiftRight_succ, hm, ih]
    simp [unshifted, ExtendedMantissa.shiftRightOne]

/-- Rounding adds one at most. -/
theorem roundedMantissa_bounds (m : ExtendedMantissa) :
    m.mantissa ≤ m.roundedMantissa ∧ m.roundedMantissa ≤ m.mantissa + 1 := by
  obtain ⟨m, r, s⟩ := m
  cases r <;> cases s <;>
    simp [ExtendedMantissa.roundedMantissa, ExtendedMantissa.accuracy, Accuracy.roundToNearestEven]
  omega

/-- The exponent for 53 bits, or the least there is. -/
theorem targetExponent_eq (e : Int) :
    Format.binary64.targetExponent e = max (e - 53) (-1074) := rfl

/-- A mantissa that is brought to its exponent and is exact. -/
theorem shiftToTargetExponent_eq (m : Nat) (e : Int) {k : Nat}
    (h : (Format.binary64.targetExponent (totalExponent m e) - e).toNat = k) :
    shiftToTargetExponent Format.binary64 m e .exact = (unshifted m >>> k, e + k) := by
  subst h
  rfl

/-- A mantissa of 53 bits stays as it is. -/
theorem shiftToTargetExponent_of_log2 {m : Nat} {e : Int} (hm : m.log2 = 52) (he : -1074 ≤ e) :
    shiftToTargetExponent Format.binary64 m e .exact = (unshifted m, e) := by
  have hk : (Format.binary64.targetExponent (totalExponent m e) - e).toNat = 0 := by
    rw [targetExponent_eq, totalExponent, hm]
    omega
  rw [shiftToTargetExponent_eq m e hk]
  exact congrArg (_, ·) (Int.add_zero e)

/-! ## Rounding -/

/-- Zero bits at the end lengthen a number by so many. -/
theorem log2_mul_twoPow {n : Nat} (hn : 0 < n) (j : Nat) : (n * 2 ^ j).log2 = n.log2 + j := by
  have hne : n * 2 ^ j ≠ 0 := (Nat.mul_pos hn (Nat.two_pow_pos j)).ne'
  refine (Nat.log2_eq_iff hne).2 ⟨?_, ?_⟩
  · rw [Nat.pow_add]
    exact Nat.mul_le_mul_right _ (Nat.log2_self_le hn.ne')
  · rw [Nat.add_right_comm, Nat.pow_add]
    exact Nat.mul_lt_mul_of_pos_right Nat.lt_log2_self (Nat.two_pow_pos j)

/-- The mantissa of 53 bits of a whole number. -/
def mantissa (n : Nat) : Nat := n * 2 ^ (52 - n.log2)

theorem mantissa_pos {n : Nat} (hn : 0 < n) : 0 < mantissa n :=
  Nat.mul_pos hn (Nat.two_pow_pos _)

theorem log2_le {n : Nat} (hn : 0 < n) (hlt : n < 2 ^ 53) : n.log2 ≤ 52 :=
  Nat.le_of_lt_succ ((Nat.log2_lt hn.ne').2 hlt)

/-- The mantissa of a whole number below 2⁵³ has 53 bits. -/
theorem log2_mantissa {n : Nat} (hn : 0 < n) (hlt : n < 2 ^ 53) : (mantissa n).log2 = 52 := by
  have := log2_le hn hlt
  rw [mantissa, log2_mul_twoPow hn]
  omega

/-- A whole number as a double. -/
def whole (n : Nat) (hn : 0 < n) : UnpackedFloat :=
  .finite .positive (mantissa n) (n.log2 - 52) (mantissa_pos hn)

/-- However many zero bits a whole number is written with, from 53 bits on it is rounded to itself.
-/
theorem roundWithAccuracy_whole {n j : Nat} (hn : 0 < n) (hlt : n < 2 ^ 53) (hj : 52 ≤ n.log2 + j) :
    roundWithAccuracy Format.binary64 .positive (n * 2 ^ j) (-j) .exact = whole n hn := by
  have hlog := log2_le hn hlt
  have hk : (Format.binary64.targetExponent (totalExponent (n * 2 ^ j) (-j)) - -j).toNat =
      n.log2 + j - 52 := by
    rw [targetExponent_eq, totalExponent, log2_mul_twoPow hn]
    omega
  -- shifted to 53 bits, with as many zero bits as are to go
  have hsplit : n * 2 ^ j = mantissa n * 2 ^ (n.log2 + j - 52) := by
    rw [mantissa, Nat.mul_assoc, ← Nat.pow_add]
    congr 2
    omega
  have hfirst : shiftToTargetExponent Format.binary64 (n * 2 ^ j) (-j) .exact =
      (unshifted (mantissa n), (n.log2 : Int) - 52) := by
    rw [shiftToTargetExponent_eq _ _ hk, hsplit, unshifted_shiftRight]
    congr 1
    omega
  -- the second shift has nothing to do, as rounding has not lengthened the mantissa
  have hsecond : shiftToTargetExponent Format.binary64 (unshifted (mantissa n)).roundedMantissa
      ((n.log2 : Int) - 52) .exact = (unshifted (mantissa n), (n.log2 : Int) - 52) :=
    shiftToTargetExponent_of_log2 (log2_mantissa hn hlt) (by omega)
  simp only [roundWithAccuracy, hfirst, hsecond]
  exact dif_neg (mantissa_pos hn).ne'

/-- With any number of zero bits behind it a whole number below 2⁵³ is rounded to itself. -/
theorem round_whole {n : Nat} (hn : 0 < n) (hlt : n < 2 ^ 53) (j : Nat) :
    UnpackedFloat.round Format.binary64 .positive (n * 2 ^ j) (-j) = whole n hn := by
  have hlog := log2_le hn hlt
  -- what is missing from 53 bits is filled up with zero bits
  obtain ⟨s, hs⟩ : ∃ s : Nat,
      (-j - Format.binary64.targetExponent (totalExponent (n * 2 ^ j) (-j))).toNat = s := ⟨_, rfl⟩
  have hfill : (n * 2 ^ j) <<< s = n * 2 ^ (j + s) := by
    rw [Nat.shiftLeft_eq, Nat.mul_assoc, ← Nat.pow_add]
  have hexponent : -(j : Int) - (s : Int) = -((j + s : Nat) : Int) := by omega
  simp only [UnpackedFloat.round, decreaseExponent, hs, hfill, hexponent]
  rw [targetExponent_eq, totalExponent, log2_mul_twoPow hn] at hs
  exact roundWithAccuracy_whole hn hlt (by omega)

/-- A mantissa of at least 53 bits is rounded to one of 53 bits, at an exponent that makes up for
the bits that go. -/
theorem roundWithAccuracy_large {m : Nat} {e : Int} (hm : 52 ≤ m.log2)
    (he : -1074 ≤ m.log2 + e - 52) :
    ∃ (m' : Nat) (e' : Int) (h : 0 < m'),
      roundWithAccuracy Format.binary64 .positive m e .exact = .finite .positive m' e' h ∧
        m'.log2 = 52 ∧ m.log2 + e - 52 ≤ e' := by
  have hne : m ≠ 0 := by rintro rfl; exact absurd hm (by decide)
  obtain ⟨k, hlog⟩ : ∃ k, m.log2 = 52 + k := Nat.exists_eq_add_of_le hm
  have hk : (Format.binary64.targetExponent (totalExponent m e) - e).toNat = k := by
    rw [targetExponent_eq, totalExponent, hlog]
    omega
  have hfirst := shiftToTargetExponent_eq m e hk
  -- what is left after the shift has 53 bits
  have hlow : 2 ^ 52 ≤ m / 2 ^ k := by
    rw [Nat.le_div_iff_mul_le (Nat.two_pow_pos k), ← Nat.pow_add, ← hlog]
    exact Nat.log2_self_le hne
  have hhigh : m / 2 ^ k < 2 ^ 53 := by
    have hlt : m < 2 ^ (m.log2 + 1) := Nat.lt_log2_self
    rw [Nat.div_lt_iff_lt_mul (Nat.two_pow_pos k), ← Nat.pow_add]
    rwa [hlog, Nat.add_right_comm] at hlt
  have hround := roundedMantissa_bounds (unshifted m >>> k)
  rw [mantissa_shiftRight] at hround
  obtain ⟨r, hr⟩ : ∃ r, (unshifted m >>> k).roundedMantissa = r := ⟨_, rfl⟩
  rw [hr] at hround
  have hmantissa : (unshifted m).mantissa = m := rfl
  rw [hmantissa] at hround
  by_cases hcarry : r < 2 ^ 53
  · have hr52 : r.log2 = 52 := (Nat.log2_eq_iff (by omega)).2 ⟨by omega, hcarry⟩
    have hsecond := shiftToTargetExponent_of_log2 (e := e + k) hr52 (by omega)
    refine ⟨r, e + k, by omega, ?_, hr52, by omega⟩
    simp only [roundWithAccuracy, hfirst, hr, hsecond]
    exact dif_neg (by show r ≠ 0; omega)
  · -- rounding up may take one bit more, which is zero
    obtain rfl : r = 2 ^ 53 := by omega
    have hk1 : (Format.binary64.targetExponent (totalExponent (2 ^ 53) (e + k)) - (e + k)).toNat =
        1 := by
      rw [targetExponent_eq, totalExponent, Nat.log2_two_pow]
      omega
    have hsecond := shiftToTargetExponent_eq (2 ^ 53) (e + k) hk1
    refine ⟨2 ^ 52, e + k + 1, Nat.two_pow_pos 52, ?_, Nat.log2_two_pow, by omega⟩
    simp only [roundWithAccuracy, hfirst, hr, hsecond]
    rfl

/-- A number of 53 bits or more is rounded to a full mantissa at an exponent that is not less, if it
is not too small. -/
theorem round_large {m : Nat} {e : Int} (hm : 52 ≤ m.log2) (he : -1074 ≤ m.log2 + e - 52) :
    ∃ (m' : Nat) (e' : Int) (h : 0 < m'),
      UnpackedFloat.round Format.binary64 .positive m e = .finite .positive m' e' h ∧
        m'.log2 = 52 ∧ m.log2 + e - 52 ≤ e' := by
  have hs : (e - Format.binary64.targetExponent (totalExponent m e)).toNat = 0 := by
    rw [targetExponent_eq, totalExponent]
    omega
  obtain ⟨m', e', h, hround, hlog, hle⟩ := roundWithAccuracy_large hm he
  refine ⟨m', e', h, ?_, hlog, hle⟩
  simp only [UnpackedFloat.round, decreaseExponent, hs]
  have hexponent : e - ((0 : Nat) : Int) = e := Int.sub_zero e
  rw [hexponent]
  exact hround

/-! ## Packing -/

/-- The sign of packed components can be read off them. -/
theorem unpackSign_packComponents (s : Sign) (e : BitVec 11) (m : BitVec 52) :
    Sign.ofBitVec (unpackSign (packComponents Format.binary64 s e m)) = s := by
  have hfirst : (s.toBitVec ++ e ++ m).extractLsb' 63 1 = s.toBitVec := by
    rw [BitVec.extractLsb'_append_eq_of_le (by decide),
      BitVec.extractLsb'_append_eq_of_le (by decide)]
    exact BitVec.extractLsb'_eq_self
  have hbit : unpackSign (packComponents Format.binary64 s e m) = s.toBitVec := hfirst
  rw [hbit]
  cases s <;> rfl

/-- The hidden bit in front of a mantissa. -/
theorem toNat_hidden (m : BitVec 52) : (1#1 ++ m).toNat = 2 ^ 52 + m.toNat := by
  rw [BitVec.toNat_append, ← Nat.shiftLeft_add_eq_or_of_lt m.isLt]
  rfl

/-- A mantissa of 53 bits is packed without loss, unless the exponent is too large. -/
theorem unpack_pack {m : Nat} {e : Int} {h : 0 < m} (hm : m.log2 = 52) (he : -1074 ≤ e) :
    (Float.Model.pack (.finite .positive m e h)).unpack =
      if e ≤ 971 then .finite .positive m e h else .infinity .positive := by
  obtain ⟨hlow, hhigh⟩ := (Nat.log2_eq_iff h.ne').1 hm
  have hbiased : (e + Format.binary64.exponentBias +
      Format.binary64.mantissaBitsWithoutImplicit).toNat = (e + 1075).toNat := by
    show (e + 1023 + 52).toNat = _
    omega
  show unpack Format.binary64 (UnpackedFloat.pack Format.binary64 _) = _
  rw [UnpackedFloat.pack]
  simp only [hbiased, hm]
  -- beyond 971 the biased exponent does not fit into eleven bits
  by_cases hsmall : e ≤ 971
  · have hexponent : (BitVec.ofNat 11 (e + 1075).toNat).toNat = (e + 1075).toNat := by
      rw [BitVec.toNat_ofNat, Nat.mod_eq_of_lt (by omega)]
    -- the exponent is neither that of an infinity nor that of a number below the normal ones
    have hnone : BitVec.ofNat 11 (e + 1075).toNat ≠ -1#11 := by
      intro heq
      have hnat := congrArg BitVec.toNat heq
      rw [hexponent] at hnat
      have : (e + 1075).toNat = 2047 := hnat
      omega
    have hnzero : BitVec.ofNat 11 (e + 1075).toNat ≠ 0#11 := by
      intro heq
      have hnat := congrArg BitVec.toNat heq
      rw [hexponent] at hnat
      have : (e + 1075).toNat = 0 := hnat
      omega
    have hmantissa : (1#1 ++ BitVec.ofNat 52 m).toNat = m := by
      rw [toNat_hidden, BitVec.toNat_ofNat]
      omega
    rw [if_neg (by show ¬2 ^ 11 ≤ _; omega),
      if_pos (show 52 + 1 = Format.binary64.mantissaBits from rfl),
      if_pos hsmall, UnpackedFloat.unpack]
    simp only [unpackMantissa_packComponents, unpackExponent_packComponents,
      unpackSign_packComponents, if_neg hnone, if_neg hnzero, hmantissa, hexponent]
    congr 1
    show ((e + 1075).toNat : Int) - (1023 + 52) = e
    omega
  · rw [if_pos (by show 2 ^ 11 ≤ _; omega), if_neg hsmall]
    rfl

/-- A double is its sign, its exponent and its mantissa. -/
theorem packComponents_unpack (b : BitVec 64) :
    packComponents Format.binary64 (Sign.ofBitVec (@unpackSign Format.binary64 b))
      (@unpackExponent Format.binary64 b) (@unpackMantissa Format.binary64 b) =
        b := by
  have hsign : ∀ v : BitVec 1, (Sign.ofBitVec v).toBitVec = v := by decide
  have hparts : b.extractLsb' 63 1 ++ b.extractLsb' 52 11 ++ b.extractLsb' 0 52 = b := by
    ext i hi
    grind
  simp only [packComponents, hsign]
  exact hparts

/-- Nothing is lost on a double that is unpacked: the only one with several bit patterns would be
the one that is not a number, and of those one alone is valid. -/
theorem pack_unpack_packComponents {s : Sign} {e : BitVec 11} {m : BitVec 52}
    (hvalid : Format.binary64.Valid (packComponents Format.binary64 s e m)) :
    UnpackedFloat.pack Format.binary64
        (UnpackedFloat.unpack Format.binary64 (packComponents Format.binary64 s e m)) =
      packComponents Format.binary64 s e m := by
  have hnan := hvalid.eq_packedNaN
  have hm : m.toNat < 2 ^ 52 := m.isLt
  have he : e.toNat < 2 ^ 11 := e.isLt
  rw [UnpackedFloat.unpack]
  simp only [unpackMantissa_packComponents, unpackExponent_packComponents,
    unpackSign_packComponents] at hnan ⊢
  -- the exponent bits tell the kinds of doubles apart, first those that are not finite
  by_cases htop : e = -1#11
  · rw [if_pos htop]
    by_cases hzero : m = 0#52
    · rw [if_pos hzero, htop, hzero]
      rfl
    · rw [if_neg hzero]
      exact (hnan htop hzero).symm
  have hexponent : e.toNat ≠ 2047 := fun h => htop (BitVec.eq_of_toNat_eq h)
  rw [if_neg htop]
  by_cases hlow : e = 0#11
  · rw [if_pos hlow]
    by_cases hzero : m = 0#52
    · rw [dif_pos hzero, hlow, hzero]
      rfl
    · -- below the normal doubles there is no hidden bit
      have hpos : m.toNat ≠ 0 := fun h => hzero (BitVec.eq_of_toNat_eq h)
      have hlog : m.toNat.log2 < 52 := (Nat.log2_lt hpos).2 hm
      rw [dif_neg hzero, UnpackedFloat.pack, hlow]
      simp only
      rw [if_neg (by decide), if_neg (by show ¬_ + 1 = 53; omega), BitVec.ofNat_toNat,
        BitVec.setWidth_eq]
  · have hhidden := toNat_hidden m
    have hlog : (1#1 ++ m).toNat.log2 = 52 :=
      (Nat.log2_eq_iff (by omega)).2 ⟨by omega, by omega⟩
    have hbiased : ((e.toNat : Int) - (Format.binary64.exponentBias +
        Format.binary64.mantissaBitsWithoutImplicit) + Format.binary64.exponentBias +
        Format.binary64.mantissaBitsWithoutImplicit).toNat = e.toNat := by omega
    have hmantissa : BitVec.ofNat 52 (1#1 ++ m).toNat = m := by
      refine BitVec.eq_of_toNat_eq ?_
      rw [BitVec.toNat_ofNat, hhidden]
      omega
    rw [if_neg hlow, UnpackedFloat.pack]
    simp only [hbiased, hlog]
    rw [if_neg (by show ¬2 ^ 11 ≤ _; omega),
      if_pos (show 52 + 1 = Format.binary64.mantissaBits from rfl), hmantissa,
      BitVec.ofNat_toNat, BitVec.setWidth_eq]

theorem eq_of_toBitVec {x y : Float.Model} (h : x.toBits.toBitVec = y.toBits.toBitVec) : x = y := by
  obtain ⟨⟨b⟩, _⟩ := x
  obtain ⟨⟨c⟩, _⟩ := y
  cases h
  rfl

/-- A double is packed to itself again. -/
theorem pack_unpack (x : Float.Model) : Float.Model.pack x.unpack = x := by
  have hvalid := x.valid
  refine eq_of_toBitVec ?_
  show UnpackedFloat.pack Format.binary64 (UnpackedFloat.unpack Format.binary64 _) = _
  rw [← packComponents_unpack x.toBits.toBitVec] at hvalid ⊢
  exact pack_unpack_packComponents hvalid

/-- No two doubles are unpacked to the same. -/
theorem unpack_injective {x y : Float.Model} (h : x.unpack = y.unpack) : x = y := by
  rw [← pack_unpack x, h, pack_unpack]

/-! ## Whole numbers -/

/-- A positive number is rounded, whatever sign a zero would have. -/
theorem normalize_natCast {n : Nat} (hn : 0 < n) (e : Int) (s : Sign) :
    UnpackedFloat.normalize Format.binary64 n e s =
      UnpackedFloat.round Format.binary64 .positive n e := by
  have hpos : compare (n : Int) 0 = .gt := compare_gt_iff_gt.2 (by omega)
  simp only [UnpackedFloat.normalize, hpos, Int.toNat_natCast]

/-- Finite numbers are subtracted at the lesser exponent and then rounded. -/
theorem sub_finite {s s' : Sign} {m m' : Nat} {e e' : Int} {h : 0 < m} {h' : 0 < m'} :
    UnpackedFloat.sub Format.binary64 (.finite s m e h) (.finite s' m' e' h') =
      UnpackedFloat.normalize Format.binary64
        (s.apply (m <<< (e - min e e').toNat : Nat) - s'.apply (m' <<< (e' - min e e').toNat : Nat))
        (min e e') .positive := rfl

/-- The mantissas of finite numbers are multiplied and the product is rounded. -/
theorem mul_finite {s s' : Sign} {m m' : Nat} {e e' : Int} {h : 0 < m} {h' : 0 < m'} :
    UnpackedFloat.mul Format.binary64 (.finite s m e h) (.finite s' m' e' h') =
      roundWithAccuracy Format.binary64 (s * s') (m * m') (e + e') .exact := rfl

/-- A whole number below 2⁵³ is a double. -/
theorem unpack_pack_whole {n : Nat} (hn : 0 < n) (hlt : n < 2 ^ 53) :
    (Float.Model.pack (whole n hn)).unpack = whole n hn := by
  have hlog := log2_le hn hlt
  rw [whole, unpack_pack (log2_mantissa hn hlt) (by omega), if_pos (by omega)]

/-- A product below 2⁵³ is exact. -/
theorem mul_whole {m n : Nat} (hm : 0 < m) (hn : 0 < n) (hlt : m * n < 2 ^ 53) :
    UnpackedFloat.mul Format.binary64 (whole m hm) (whole n hn) =
      whole (m * n) (Nat.mul_pos hm hn) := by
  have hmlog : m.log2 ≤ 52 := log2_le hm ((Nat.le_mul_of_pos_right m hn).trans_lt hlt)
  have hnlog : n.log2 ≤ 52 := log2_le hn ((Nat.le_mul_of_pos_left n hm).trans_lt hlt)
  have hmantissa : mantissa m * mantissa n = m * n * 2 ^ (52 - m.log2 + (52 - n.log2)) := by
    rw [mantissa, mantissa, Nat.pow_add]
    ring
  have hexponent : ((m.log2 : Int) - 52) + (n.log2 - 52) =
      -((52 - m.log2 + (52 - n.log2) : Nat) : Int) := by omega
  have hlog : m.log2 + n.log2 ≤ (m * n).log2 := by
    rw [Nat.le_log2 (Nat.mul_pos hm hn).ne', Nat.pow_add]
    exact Nat.mul_le_mul (Nat.log2_self_le hm.ne') (Nat.log2_self_le hn.ne')
  rw [whole, whole, mul_finite, hmantissa, hexponent]
  exact roundWithAccuracy_whole _ hlt (by omega)

/-- One less than a whole number below 2⁵³ is exact. -/
theorem sub_whole_one {n : Nat} (hn : 0 < n) (hlt : n + 1 < 2 ^ 53) :
    UnpackedFloat.sub Format.binary64 (whole (n + 1) n.succ_pos) (whole 1 Nat.one_pos) =
      whole n hn := by
  have hlog := log2_le n.succ_pos hlt
  have hmin : min (((n + 1).log2 : Int) - 52) (((1 : Nat).log2 : Int) - 52) = -52 := by
    show min _ (-52) = _
    omega
  have hshift : (((n + 1).log2 : Int) - 52 - -52).toNat = (n + 1).log2 := by omega
  have hmantissa : mantissa (n + 1) <<< (n + 1).log2 = (n + 1) * 2 ^ 52 := by
    rw [mantissa, Nat.shiftLeft_eq, Nat.mul_assoc, ← Nat.pow_add, Nat.sub_add_cancel hlog]
  have hone : mantissa 1 <<< (((1 : Nat).log2 : Int) - 52 - -52).toNat = 2 ^ 52 := rfl
  have hdiff : Sign.apply .positive (((n + 1) * 2 ^ 52 : Nat) : Int) -
      Sign.apply .positive ((2 ^ 52 : Nat) : Int) = ((n * 2 ^ 52 : Nat) : Int) := by
    simp only [Sign.apply]
    push_cast
    ring
  rw [whole, whole, sub_finite, hmin, hshift, hmantissa, hone, hdiff,
    normalize_natCast (Nat.mul_pos hn (Nat.two_pow_pos 52))]
  exact round_whole hn (by omega) 52

/-- The double of a whole number below 2⁵³ has its mantissa. -/
theorem toModel_ofNat {n : Nat} (hn : 0 < n) (hlt : n < 2 ^ 53) :
    (Float.ofNat n).toModel = Float.Model.pack (whole n hn) := by
  have hround : UnpackedFloat.ofNat Format.binary64 n = whole n hn := by
    have hround := round_whole hn hlt 0
    rw [Nat.pow_zero, Nat.mul_one] at hround
    rw [UnpackedFloat.ofNat, UnpackedFloat.ofInt, normalize_natCast hn]
    exact hround
  have hint : (UnpackedFloat.ofUInt64 Format.binary64 n.toUInt64) = whole n hn := by
    rw [UnpackedFloat.ofUInt64, Nat.toUInt64, UInt64.toNat_ofNat', Nat.mod_eq_of_lt (by omega),
      hround]
  have hone : (Float.ofBits 4607182418800017408).toModel.unpack = whole 1 Nat.one_pos := rfl
  -- the number times one
  have hofNat : Float.ofNat n =
      n.toUInt64.toFloat * Float.ofBits 4607182418800017408 := dif_pos ⟨hlt, by decide⟩
  rw [hofNat]
  show Float.Model.pack (UnpackedFloat.mul Format.binary64
    (Float.Model.pack (UnpackedFloat.ofUInt64 Format.binary64 n.toUInt64)).unpack
      (Float.ofBits 4607182418800017408).toModel.unpack) = _
  rw [hint, unpack_pack_whole hn hlt, hone, mul_whole hn Nat.one_pos (by omega)]
  congr 2
  exact Nat.mul_one n

/-! ## Numbers that are not small -/

/-- At least two to the power of `b + 52`, with a mantissa of 53 bits unless infinite. -/
inductive AtLeast (b : Int) : UnpackedFloat → Prop
  | infinity : AtLeast b (.infinity .positive)
  | finite {m : Nat} {e : Int} (h : 0 < m) :
      m.log2 = 52 → b ≤ e → AtLeast b (.finite .positive m e h)

theorem AtLeast.mono {b c : Int} (hcb : c ≤ b) {x : UnpackedFloat} (h : AtLeast b x) :
    AtLeast c x := by
  cases h with
  | infinity => exact .infinity
  | finite h hlog hle => exact .finite h hlog (hcb.trans hle)

/-- What is at least so much stays so when it is packed, or becomes infinite. -/
theorem AtLeast.unpack_pack {b : Int} (hb : -1074 ≤ b) {x : UnpackedFloat} (h : AtLeast b x) :
    AtLeast b (Float.Model.pack x).unpack := by
  cases h with
  | infinity => exact .infinity
  | finite h hlog hle =>
    rw [Doubles.unpack_pack hlog (hb.trans hle)]
    split
    · exact .finite h hlog hle
    · exact .infinity

/-- A whole number of enough bits is at least that power of two. -/
theorem whole_atLeast {n b : Nat} (hn : 2 ^ b ≤ n) (hlt : n < 2 ^ 53) (hpos : 0 < n) :
    AtLeast (b - 52) (whole n hpos) := by
  have hlog : b ≤ n.log2 := (Nat.le_log2 hpos.ne').2 hn
  exact .finite _ (log2_mantissa hpos hlt) (by omega)

/-- From 2⁵³ on whole numbers may be rounded, but only to greater powers of two times a mantissa. -/
theorem toModel_ofNat_large {n : Nat} (hn : 2 ^ 53 ≤ n) :
    AtLeast 1 (Float.ofNat n).toModel.unpack := by
  have hne : n ≠ 0 := by rintro rfl; exact absurd hn (by decide)
  have hlog : 53 ≤ n.log2 := (Nat.le_log2 hne).2 hn
  have hofNat : (Float.ofNat n).toModel = .pack (UnpackedFloat.ofScientific Format.binary64 n 0) :=
    congrArg Float.toModel (dif_neg fun h => absurd h.1 (Nat.not_lt.2 hn))
  have hshifted : (n <<< 53).log2 = n.log2 + 53 := by
    rw [Nat.shiftLeft_eq, log2_mul_twoPow (Nat.pos_of_ne_zero hne)]
  obtain ⟨m, e, h, hround, hm, hle⟩ := roundWithAccuracy_large (m := n <<< 53) (e := -53)
    (by omega) (by omega)
  have hscientific : UnpackedFloat.ofScientific Format.binary64 n 0 = .finite .positive m e h := by
    -- no case of `ofScientific` for tiny numbers applies
    have htiny : ¬(0 : Int) < -(2 ^ Format.binary64.exponentBits + n.log2) := by
      have : (0 : Int) ≤ 2 ^ Format.binary64.exponentBits := by positivity
      omega
    have hone : 10 ^ Int.toNat 0 = 1 := rfl
    have hbits : Format.binary64.mantissaBits = 53 := rfl
    have hexponent : -((53 : Nat) : Int) + 0 = -53 := rfl
    have hsign : Sign.positive * Sign.positive = .positive := rfl
    rw [UnpackedFloat.ofScientific, dif_neg hne, if_neg (by decide), if_neg htiny, if_pos le_rfl,
      mul_finite, hsign, hone, hbits, Nat.mul_one, hexponent, hround]
  rw [hofNat, hscientific]
  exact AtLeast.unpack_pack (by decide) (.finite h hm (by omega))

/-- The same of any whole number as a double, rounded or not. -/
theorem ofNat_atLeast {n b : Nat} (hb : b ≤ 53) (hn : 2 ^ b ≤ n) :
    AtLeast (b - 52) (Float.ofNat n).toModel.unpack := by
  have hpos : 0 < n := (Nat.two_pow_pos b).trans_le hn
  by_cases hlt : n < 2 ^ 53
  · rw [toModel_ofNat hpos hlt, unpack_pack_whole hpos hlt]
    exact whole_atLeast hn hlt hpos
  · exact (toModel_ofNat_large (Nat.not_lt.1 hlt)).mono (by omega)

/-- One less than a number of at least two is at least one. -/
theorem AtLeast.sub_one {x : UnpackedFloat} (h : AtLeast (-51) x) :
    AtLeast (-52) (UnpackedFloat.sub Format.binary64 x (whole 1 Nat.one_pos)) := by
  cases h with
  | infinity => exact .infinity
  | @finite m e h hlog hle =>
    obtain ⟨k, hk⟩ : ∃ k : Nat, e = k + 1 - 52 := ⟨(e + 51).toNat, by omega⟩
    have hmin : min e (((1 : Nat).log2 : Int) - 52) = -52 := by
      show min _ (-52) = _
      omega
    -- both mantissas are brought to the exponent -52, where one is `2 ^ 52`
    have hshift : (e - -52).toNat = k + 1 := by omega
    have hone : mantissa 1 <<< (((1 : Nat).log2 : Int) - 52 - -52).toNat = 2 ^ 52 := rfl
    have hlow : 2 ^ 53 ≤ m * 2 ^ (k + 1) := by
      have hm : 2 ^ 52 ≤ m := ((Nat.log2_eq_iff h.ne').1 hlog).1
      calc 2 ^ 53 = 2 ^ 52 * 2 ^ 1 := rfl
        _ ≤ m * 2 ^ (k + 1) := Nat.mul_le_mul hm (Nat.pow_le_pow_right Nat.two_pos (by omega))
    have hdiff : Sign.apply .positive ((m <<< (k + 1) : Nat) : Int) -
        Sign.apply .positive ((2 ^ 52 : Nat) : Int) = ((m * 2 ^ (k + 1) - 2 ^ 52 : Nat) : Int) := by
      simp only [Sign.apply]
      rw [Nat.shiftLeft_eq]
      omega
    have hlarge : 2 ^ 52 ≤ m * 2 ^ (k + 1) - 2 ^ 52 := by omega
    have hpos : 0 < m * 2 ^ (k + 1) - 2 ^ 52 := by omega
    -- what is left has at least 53 bits, so it is rounded to a normal double
    have hlog' : 52 ≤ (m * 2 ^ (k + 1) - 2 ^ 52).log2 := (Nat.le_log2 hpos.ne').2 hlarge
    obtain ⟨m', e', h', hround, hm', hle'⟩ := round_large (e := -52) hlog' (by omega)
    rw [whole, sub_finite, hmin, hshift, hone, hdiff, normalize_natCast hpos, hround]
    exact .finite h' hm' (by omega)

theorem unpack_tolerance :
    tolerance.toModel.unpack = .finite .positive 7555786372591432 (-76) (by decide) := rfl

/-- What is at least one is not within the tolerance. -/
theorem AtLeast.not_lt_tolerance {x : Float} (h : AtLeast (-52) x.toModel.unpack) :
    ¬Float.abs x < tolerance := by
  have habs : AtLeast (-52) (Float.abs x).toModel.unpack := by
    refine AtLeast.unpack_pack (by decide) ?_
    cases hx : x.toModel.unpack <;> rw [hx] at h <;> cases h
    · exact .infinity
    · exact .finite _ ‹_› ‹_›
  intro hlt
  have hlt : UnpackedFloat.lt (Float.abs x).toModel.unpack tolerance.toModel.unpack = true :=
    of_decide_eq_true hlt
  revert hlt
  rw [unpack_tolerance]
  generalize (Float.abs x).toModel.unpack = y at habs
  cases habs with
  | infinity => decide
  | @finite m e h hlog hle =>
    have hcompare : compare e (-76) = Ordering.gt := compare_gt_iff_gt.2 (by omega)
    simp [UnpackedFloat.lt, UnpackedFloat.compare, hcompare]

/-! ## The laws -/

/-- Whatever is a number compares equal to itself. -/
theorem compare_self (x : UnpackedFloat) : x.compare x = some .eq ∨ x.isNaN = true := by
  cases x with
  | notANumber => exact .inr rfl
  | infinity s => cases s <;> exact .inl rfl
  | zero s => exact .inl rfl
  | finite s m e h => cases s <;> simp [UnpackedFloat.compare]

/-- What compares equal to a positive number is that number. -/
theorem AtLeast.eq_of_compare {b : Int} {x y : UnpackedFloat} (h : AtLeast b y)
    (hxy : x.compare y = some .eq) : x = y := by
  cases h with
  | infinity =>
    cases x with
    | infinity s =>
      cases s with
      | positive => rfl
      | negative => exact absurd hxy (by decide)
    | finite s => cases s <;> cases hxy
    | _ => cases hxy
  | @finite m e h hlog hle =>
    cases x with
    | finite s m' e' h' =>
      cases s with
      | positive =>
        have hthen : (compare e' e).then (compare m' m) = .eq := Option.some.inj hxy
        obtain ⟨he, hm⟩ := Ordering.then_eq_eq.1 hthen
        obtain rfl := compare_eq_iff_eq.1 he
        obtain rfl := compare_eq_iff_eq.1 hm
        rfl
      | negative => cases hxy
    | infinity s => cases s <;> cases hxy
    | _ => cases hxy

theorem eq_zero_of_compare {x : UnpackedFloat} {s : Sign} (h : x.compare (.zero s) = some .eq) :
    ∃ s', x = .zero s' := by
  cases x with
  | zero s' => exact ⟨s', rfl⟩
  | notANumber => cases h
  | infinity s' => cases s' <;> cases h
  | finite s' => cases s' <;> cases h

theorem eq_of_toModel {a b : Float} (h : a.toModel = b.toModel) : a = b := by
  obtain ⟨a⟩ := a
  obtain ⟨b⟩ := b
  cases h
  rfl

/-- Numbers whose difference is one or more are not near each other. -/
theorem near_eq_false {a b : Float}
    (h : AtLeast (-52) (UnpackedFloat.sub Format.binary64 a.toModel.unpack b.toModel.unpack)) :
    Scalar.near a b = false :=
  decide_eq_false (AtLeast.not_lt_tolerance (h.unpack_pack (by decide)))

theorem unpack_zero : (Float.ofNat 0).toModel.unpack = .zero .positive := rfl

theorem unpack_one : (Float.ofNat 1).toModel.unpack = whole 1 Nat.one_pos := rfl

theorem near_ofNat_zero_iff (n : Nat) :
    Scalar.near (Float.ofNat n) (Float.ofNat 0) = true ↔ n = 0 := by
  refine ⟨fun h => ?_, ?_⟩
  · by_contra hn
    have hleast := ofNat_atLeast (n := n) (b := 0) (by decide) (Nat.pos_of_ne_zero hn)
    have hsub : UnpackedFloat.sub Format.binary64 (Float.ofNat n).toModel.unpack
        (Float.ofNat 0).toModel.unpack = (Float.ofNat n).toModel.unpack := by
      rw [unpack_zero]
      generalize (Float.ofNat n).toModel.unpack = x at hleast
      cases hleast <;> rfl
    rw [near_eq_false (by rw [hsub]; exact hleast)] at h
    cases h
  · rintro rfl
    rfl

/-- Of the whole numbers only one is near one. -/
theorem near_ofNat_one_iff (n : Nat) :
    Scalar.near (Float.ofNat n) (Float.ofNat 1) = true ↔ n = 1 := by
  refine ⟨fun h => ?_, ?_⟩
  · by_contra hn
    by_cases hzero : n = 0
    · subst hzero
      cases h
    · have hleast := ofNat_atLeast (n := n) (b := 1) (by decide) (by omega)
      rw [near_eq_false (unpack_one ▸ hleast.sub_one)] at h
      cases h
  · rintro rfl
    rfl

/-- An exponent below 2⁵³ is lessened by one exactly. -/
theorem sub_ofNat_one (n : Nat) (h : n + 1 < 2 ^ 53) :
    Float.sub (Float.ofNat (n + 1)) (Float.ofNat 1) = Float.ofNat n := by
  by_cases hn : n = 0
  · subst hn
    rfl
  · have hpos := Nat.pos_of_ne_zero hn
    refine eq_of_toModel ?_
    show Float.Model.pack (UnpackedFloat.sub Format.binary64 (Float.ofNat (n + 1)).toModel.unpack
      (Float.ofNat 1).toModel.unpack) = _
    rw [unpack_one, toModel_ofNat n.succ_pos h, unpack_pack_whole n.succ_pos h,
      sub_whole_one hpos h, toModel_ofNat hpos (by omega)]

/-- Exponents are multiplied exactly as long as the product is below 2⁵³. -/
theorem mul_ofNat (m n : Nat) (hm : 0 < m) (hn : 0 < n) (h : m * n < 2 ^ 53) :
    Float.mul (Float.ofNat m) (Float.ofNat n) = Float.ofNat (m * n) := by
  have hmlt := (Nat.le_mul_of_pos_right m hn).trans_lt h
  have hnlt := (Nat.le_mul_of_pos_left n hm).trans_lt h
  refine eq_of_toModel ?_
  show Float.Model.pack (UnpackedFloat.mul Format.binary64 (Float.ofNat m).toModel.unpack
    (Float.ofNat n).toModel.unpack) = _
  rw [toModel_ofNat hm hmlt, toModel_ofNat hn hnlt, unpack_pack_whole hm hmlt,
    unpack_pack_whole hn hnlt, mul_whole hm hn h, toModel_ofNat (Nat.mul_pos hm hn) h]

/-- Doubles are the same if they compare equal or neither is a number. -/
theorem same_iff (a b : Float) :
    Scalar.same a b = true ↔ a.toModel.unpack.compare b.toModel.unpack = some .eq ∨
      a.toModel.unpack.isNaN = true ∧ b.toModel.unpack.isNaN = true := by
  have hsame : Scalar.same a b = (a.toModel.unpack.beq b.toModel.unpack ||
    a.toModel.unpack.isNaN && b.toModel.unpack.isNaN) := rfl
  rw [hsame, Bool.or_eq_true, Bool.and_eq_true, UnpackedFloat.beq, beq_iff_eq]

theorem same_refl (a : Float) : Scalar.same a a = true :=
  (same_iff a a).2 ((compare_self _).imp_right fun h => ⟨h, h⟩)

/-- A zero of either sign is near zero and not near one. -/
theorem near_of_same_zero (a : Float) (h : Scalar.same a (Float.ofNat 0) = true) :
    Scalar.near a (Float.ofNat 0) = true ∧ Scalar.near a (Float.ofNat 1) = false := by
  rcases (same_iff _ _).1 h with h | ⟨-, h⟩
  · obtain ⟨s, hs⟩ := eq_zero_of_compare h
    have hzero : a = Float.ofModel (Float.Model.pack (.zero s)) := by
      refine eq_of_toModel ?_
      rw [← hs, pack_unpack]
    subst hzero
    cases s <;> exact ⟨rfl, rfl⟩
  · cases h

/-- What is the same as a positive whole number is that number, as only zeros differ in sign. -/
theorem eq_of_same_ofNat (a : Float) (n : Nat) (h : Scalar.same a (Float.ofNat (n + 1)) = true) :
    a = Float.ofNat (n + 1) := by
  have hleast := ofNat_atLeast (n := n + 1) (b := 0) (by decide) n.succ_pos
  rcases (same_iff _ _).1 h with h | ⟨-, h⟩
  · exact eq_of_toModel (unpack_injective (hleast.eq_of_compare h))
  · generalize (Float.ofNat (n + 1)).toModel.unpack = x at hleast h
    cases hleast <;> cases h

end Fluxion.Doubles

namespace Fluxion

/-- Doubles keep the laws of whole numbers. -/
instance : LawfulScalar Float where
  near_ofNat_zero_iff := Doubles.near_ofNat_zero_iff
  near_ofNat_one_iff := Doubles.near_ofNat_one_iff
  sub_ofNat_one := Doubles.sub_ofNat_one
  mul_ofNat := Doubles.mul_ofNat
  same_refl := Doubles.same_refl
  near_of_same_zero := Doubles.near_of_same_zero
  eq_of_same_ofNat := Doubles.eq_of_same_ofNat

end Fluxion

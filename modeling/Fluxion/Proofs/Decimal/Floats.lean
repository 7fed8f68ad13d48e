import Fluxion.Proofs.Decimal.Doubles
import Fluxion.Proofs.Scalar.Doubles

/-!
# Finite floats are read back from their texts

The bits of a float are its sign in front of a number below 2⁶³, which is below the bits of infinity
if the float is finite (`bits_of_isFinite`). The text spells that number, with a minus sign for the
sign bit, and a float is negated by turning its sign bit over (`neg_ofBits`). So the finite floats
are legible.
-/

namespace Fluxion.Doubles

open Float.Model Float.Model.UnpackedFloat

theorem toNat_append {v w : Nat} (a : BitVec v) (b : BitVec w) :
    (a ++ b).toNat = a.toNat * 2 ^ w + b.toNat := by
  rw [BitVec.toNat_append, ← Nat.shiftLeft_add_eq_or_of_lt b.isLt, Nat.shiftLeft_eq]

/-- The bits of a float without its sign. -/
def unsigned (e : BitVec 11) (m : BitVec 52) : Nat := e.toNat * 2 ^ 52 + m.toNat

/-- The bits of a double are its sign bit in front of the others. -/
theorem toNat_packComponents (s : Sign) (e : BitVec 11) (m : BitVec 52) :
    (packComponents Format.binary64 s e m).toNat = s.toBitVec.toNat * 2 ^ 63 + unsigned e m := by
  show (s.toBitVec ++ e ++ m).toNat = _
  rw [toNat_append, toNat_append, unsigned]
  ring

/-- Without the exponent of infinities the bits are those of a finite number. -/
theorem unsigned_lt {e : BitVec 11} (he : e ≠ -1#11) (m : BitVec 52) :
    unsigned e m < Binary64.infinity := by
  have hm := m.isLt
  have hlt := e.isLt
  have hne : e.toNat ≠ 2047 := fun h => he (BitVec.eq_of_toNat_eq h)
  show e.toNat * 2 ^ 52 + m.toNat < 2047 * 2 ^ 52
  omega

/-- The sign, the exponent and the mantissa of a finite float. -/
theorem components_of_isFinite {x : Float} (h : x.isFinite = true) :
    ∃ (s : Sign) (e : BitVec 11) (m : BitVec 52), e ≠ -1#11 ∧
      x.toModel.toBits.toBitVec = packComponents Format.binary64 s e m := by
  refine ⟨_, _, _, ?_, (packComponents_unpack x.toModel.toBits.toBitVec).symm⟩
  intro htop
  have hfinite : (UnpackedFloat.unpack Format.binary64 x.toModel.toBits.toBitVec).isFinite = true :=
    h
  rw [UnpackedFloat.unpack] at hfinite
  simp only [if_pos htop] at hfinite
  split at hfinite <;> cases hfinite

/-- The float with a sign, an exponent and a mantissa. -/
def ofComponents (s : Sign) (e : BitVec 11) (m : BitVec 52) : Float :=
  Float.ofBits ⟨packComponents Format.binary64 s e m⟩

theorem eq_ofComponents {x : Float} {s : Sign} {e : BitVec 11} {m : BitVec 52}
    (h : x.toModel.toBits.toBitVec = packComponents Format.binary64 s e m) :
    x = ofComponents s e m := by
  refine eq_of_toModel ?_
  show x.toModel = Float.Model.pack (UnpackedFloat.unpack Format.binary64 _)
  rw [← h]
  exact (pack_unpack x.toModel).symm

/-- With the sign turned over, the same is unpacked but for the sign. -/
theorem unpack_negative (e : BitVec 11) (m : BitVec 52) :
    UnpackedFloat.unpack Format.binary64 (packComponents Format.binary64 .negative e m) =
      (UnpackedFloat.unpack Format.binary64
        (packComponents Format.binary64 .positive e m)).neg := by
  rw [UnpackedFloat.unpack, UnpackedFloat.unpack]
  simp only [unpackMantissa_packComponents, unpackExponent_packComponents,
    unpackSign_packComponents]
  split
  · split <;> rfl
  split
  · split <;> rfl
  · rfl

/-- Components without the exponent of infinities are those of a double. -/
theorem valid_packComponents (s : Sign) {e : BitVec 11} (he : e ≠ -1#11) (m : BitVec 52) :
    Format.binary64.Valid (packComponents Format.binary64 s e m) := by
  refine ⟨fun htop => absurd ?_ he⟩
  rwa [unpackExponent_packComponents] at htop

/-- A finite float is negated by its sign bit. -/
theorem neg_ofComponents {e : BitVec 11} (he : e ≠ -1#11) (m : BitVec 52) :
    Float.neg (ofComponents .positive e m) = ofComponents .negative e m := by
  have hunpack : (ofComponents .positive e m).toModel.unpack =
      UnpackedFloat.unpack Format.binary64 (packComponents Format.binary64 .positive e m) :=
    congrArg (UnpackedFloat.unpack Format.binary64)
      (pack_unpack_packComponents (valid_packComponents .positive he m))
  refine eq_of_toModel ?_
  show Float.Model.pack (ofComponents .positive e m).toModel.unpack.neg =
    Float.Model.pack (UnpackedFloat.unpack Format.binary64 _)
  rw [hunpack, unpack_negative]

theorem ofBits_eq (e : BitVec 11) (m : BitVec 52) :
    Numeral.ofBits false (unsigned e m) = ofComponents .positive e m := by
  have hm := m.isLt
  have hlt := e.isLt
  have hbits := toNat_packComponents .positive e m
  have hsmall : unsigned e m < 2 ^ 64 := by
    rw [unsigned]
    omega
  have hword : UInt64.ofNat (unsigned e m) = ⟨packComponents Format.binary64 .positive e m⟩ := by
    refine UInt64.toNat_inj.1 ?_
    rw [UInt64.toNat_ofNat', Nat.mod_eq_of_lt hsmall]
    refine Eq.trans ?_ hbits.symm
    rw [Sign.toBitVec, BitVec.toNat_ofNat, Nat.zero_mod, Nat.zero_mul, Nat.zero_add]
  rw [Numeral.ofBits, if_neg Bool.false_ne_true, Nat.add_zero, hword, ofComponents]

theorem isNaN_of_isFinite {x : Float} (h : x.isFinite = true) : x.isNaN = false := by
  have hfinite : x.toModel.unpack.isFinite = true := h
  show x.toModel.unpack.isNaN = false
  cases hx : x.toModel.unpack with
  | notANumber => rw [hx] at hfinite; cases hfinite
  | infinity s | zero s | finite s m e hm => rfl

/-- Without the sign bit the text spells the bits. -/
theorem text_positive {x : Float} {k : Nat} (hnan : x.isNaN = false) (hk : k < Binary64.signBit)
    (hbits : x.toBits.toNat = k) : Numeral.text x = Numeral.unsignedText k := by
  unfold Numeral.text
  simp only [hnan, hbits, Bool.false_eq_true, if_false]
  rw [if_neg (Nat.not_le_of_lt hk)]

/-- With the sign bit the text spells the other bits after a minus sign. -/
theorem text_negative {x : Float} {k : Nat} (hnan : x.isNaN = false)
    (hbits : x.toBits.toNat = Binary64.signBit + k) :
    Numeral.text x = "-" ++ Numeral.unsignedText k := by
  unfold Numeral.text
  simp only [hnan, hbits, Bool.false_eq_true, if_false]
  rw [if_pos (Nat.le_add_right _ _), Nat.add_sub_cancel_left]

/-- Finite floats are read back from their texts. -/
theorem legible_float : Legible fun x : Float => x.isFinite = true := by
  intro x hfinite
  obtain ⟨s, e, m, he, hx⟩ := components_of_isFinite hfinite
  obtain ⟨hnumeral, hvalue⟩ := Double.unsignedText_spec (unsigned_lt he m)
  -- the text of the number without its sign is read back to the same bits
  have hread : Numeral.ofToken (Numeral.unsignedText (unsigned e m)) =
      ofComponents .positive e m := by
    rw [← ofBits_eq, Numeral.ofToken, hvalue]
  have hnan := isNaN_of_isFinite hfinite
  have hbits : x.toBits.toNat = s.toBitVec.toNat * 2 ^ 63 + unsigned e m :=
    (congrArg BitVec.toNat hx).trans (toNat_packComponents s e m)
  -- only the sign decides which of the two forms the text has
  cases s with
  | positive =>
    have hsmall : unsigned e m < Binary64.signBit :=
      (unsigned_lt he m).trans (by decide +kernel)
    have htext : Literal.text x = Numeral.unsignedText (unsigned e m) :=
      text_positive hnan hsmall (hbits.trans (Nat.zero_add _))
    refine Or.inl ?_
    rw [htext]
    exact ⟨hnumeral, hread.trans (eq_ofComponents hx).symm⟩
  | negative =>
    have htext : Literal.text x = "-" ++ Numeral.unsignedText (unsigned e m) :=
      text_negative hnan hbits
    refine Or.inr ⟨_, htext, hnumeral, ?_⟩
    show Float.neg (Numeral.ofToken _) = x
    rw [hread, neg_ofComponents he, eq_ofComponents hx]

end Fluxion.Doubles

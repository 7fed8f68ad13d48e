import Fluxion.Proofs.Decimal.Floats
import Fluxion.Proofs.Scalar.Arithmetic
import Fluxion.Proofs.Tree.Spelling

/-!
# Digits and constants as real numbers

Constants are doubles, and the text of a constant is a decimal near to it. To read a formula digits
have to be given a value, and constants one that goes with it: the digits in the text of a constant,
with the minus sign in front if there is one, stand for the same number as the constant
(`Formula.Numbers`).

There are two ways to do that. Digits may stand for the nearest double, and constants for themselves
(`Numbers.doubles`), because finite doubles are read back from their texts. Or digits stand for the
decimal that they spell, and constants for what is written for them (`Numbers.decimals`).
-/

namespace Fluxion

namespace Doubles

open Float.Model Float.Model.UnpackedFloat

/-- The number that a double stands for, as its mantissa times a power of two. What is not finite
stands for none, and has the value zero. -/
noncomputable def unpackedReal : UnpackedFloat → ℝ
  | .finite .positive m e _ => m * 2 ^ e
  | .finite .negative m e _ => -(m * 2 ^ e)
  | _ => 0

/-- The number that a double stands for. -/
noncomputable def real (x : Float) : ℝ := unpackedReal x.toModel.unpack

/-- To turn over the sign of unpacked digits turns over the real number. -/
theorem unpackedReal_neg (x : UnpackedFloat) : unpackedReal x.neg = -unpackedReal x := by
  cases x with
  | notANumber | infinity s | zero s => exact neg_zero.symm
  | finite s m e hm =>
    cases s with
    | positive => rfl
    | negative => exact (neg_neg _).symm

theorem unpacked_neg_neg (x : UnpackedFloat) : x.neg.neg = x := by
  cases x with
  | notANumber => rfl
  | infinity s | zero s | finite s => cases s <;> rfl

/-- A double is negated by its sign, whether it is a number or not. -/
theorem unpack_pack_neg (x : Float) :
    (Float.Model.pack x.toModel.unpack.neg).unpack = x.toModel.unpack.neg := by
  -- finite doubles by their components; the others are few
  by_cases h : x.isFinite = true
  · obtain ⟨s, e, m, he, hx⟩ := components_of_isFinite h
    have hpack (s : Sign) : (Float.Model.pack
        (UnpackedFloat.unpack Format.binary64 (packComponents Format.binary64 s e m))).unpack =
          UnpackedFloat.unpack Format.binary64 (packComponents Format.binary64 s e m) :=
      congrArg (UnpackedFloat.unpack Format.binary64)
        (pack_unpack_packComponents (valid_packComponents s he m))
    have hunpack : x.toModel.unpack =
        UnpackedFloat.unpack Format.binary64 (packComponents Format.binary64 s e m) :=
      congrArg (UnpackedFloat.unpack Format.binary64) hx
    rw [hunpack]
    cases s with
    | positive => rw [← unpack_negative, hpack]
    | negative => rw [unpack_negative, unpacked_neg_neg, hpack]
  · have hinfinite : ¬ x.toModel.unpack.isFinite = true := h
    cases hx : x.toModel.unpack with
    | notANumber => rfl
    | infinity s => exact unpack_pack_infinity _
    | zero s | finite s => exact absurd (by rw [hx]; rfl) hinfinite

/-- The real number of a double changes its sign with it. -/
theorem real_neg (x : Float) : real (Float.neg x) = -real x := by
  show unpackedReal (Float.Model.pack x.toModel.unpack.neg).unpack = _
  rw [unpack_pack_neg, unpackedReal_neg]
  rfl

/-- Whole numbers stand for themselves. -/
theorem real_ofNat {n : Nat} (hn : 0 < n) (hlt : n < 2 ^ 53) : real (Float.ofNat n) = n := by
  have hlog := log2_le hn hlt
  have hunpack : (Float.ofNat n).toModel.unpack = whole n hn := by
    rw [toModel_ofNat hn hlt, unpack_pack_whole hn hlt]
  have hexp : (n.log2 : Int) - 52 = -((52 - n.log2 : Nat) : Int) := by omega
  rw [real, hunpack]
  show ((mantissa n : Nat) : ℝ) * 2 ^ ((n.log2 : Int) - 52) = n
  rw [mantissa, hexp, zpow_neg, zpow_natCast, Nat.cast_mul, Nat.cast_pow, Nat.cast_ofNat]
  exact mul_inv_cancel_right₀ (pow_ne_zero _ two_ne_zero) _

end Doubles

/-- A numeral starts with a digit. -/
theorem not_isNumeral_negative (s : String) : ¬ IsNumeral ("-" ++ s) := by
  have hhead : ("-" ++ s).toList = '-' :: s.toList := String.toList_append
  rintro (h | ⟨whole, fraction, hcs, hwhole, -⟩)
  · exact absurd (h.2 '-' (by rw [hhead]; exact List.mem_cons_self)) (by decide)
  · obtain ⟨c, cs, rfl⟩ := List.exists_cons_of_ne_nil hwhole.1
    rw [hhead, List.cons_append, List.cons.injEq] at hcs
    have hdigit := hwhole.2 c List.mem_cons_self
    rw [← hcs.1] at hdigit
    exact absurd hdigit (by decide)

namespace Formula

/-- Digits and constants as real numbers, so that the text of a constant stands for the same number.
-/
structure Numbers (α : Type) [Literal α] (finite : α → Prop) where
  numeral : String → ℝ
  real : α → ℝ
  agree : ∀ a, finite a →
    IsNumeral (Literal.text a) ∧ numeral (Literal.text a) = real a ∨
      ∃ s, Literal.text a = "-" ++ s ∧ IsNumeral s ∧ -numeral s = real a

namespace Numbers

/-- Digits stand for the nearest double, and a double for itself. -/
noncomputable def doubles : Numbers Float fun x => x.isFinite = true where
  numeral s := Doubles.real (Numeral.ofToken s)
  real := Doubles.real
  agree x hx := by
    rcases Doubles.legible_float x hx with ⟨hnumeral, hread⟩ | ⟨s, htext, hnumeral, hread⟩
    · exact Or.inl ⟨hnumeral, congrArg Doubles.real hread⟩
    · have hneg : Float.neg (Numeral.ofToken s) = x := hread
      exact Or.inr ⟨s, htext, hnumeral, by rw [← Doubles.real_neg, hneg]⟩

theorem doubles_numeral (s : String) : doubles.numeral s = Doubles.real (Numeral.ofToken s) := rfl

/-- The number that digits with a point perhaps spell. -/
noncomputable def decimal (s : String) : ℝ :=
  (Decimal.ofChars s.toList).digits * ((10 : Nat) : ℝ) ^ (Decimal.ofChars s.toList).exponent

/-- The number that digits spell, with a minus sign in front perhaps. -/
noncomputable def signedDecimal (s : String) : ℝ :=
  match s.toList with
  | '-' :: cs => -decimal (String.ofList cs)
  | _ => decimal s

/-- A minus sign in front turns over the decimal. -/
theorem signedDecimal_negative (s : String) : signedDecimal ("-" ++ s) = -decimal s := by
  have hhead : ("-" ++ s).toList = '-' :: s.toList := String.toList_append
  rw [signedDecimal, hhead]
  exact congrArg (fun s => -decimal s) (String.ofList_toList)

theorem signedDecimal_numeral {s : String} (h : IsNumeral s) : signedDecimal s = decimal s := by
  rw [signedDecimal]
  split
  · next cs hcs =>
    have hs : s = "-" ++ String.ofList cs := by
      rw [← String.toList_inj, hcs]
      simp
    exact absurd (hs ▸ h) (not_isNumeral_negative _)
  · rfl

/-- Digits stand for the decimal that they spell, and a constant for the one in its text. -/
noncomputable def decimals [Literal α] {finite : α → Prop} (hlegible : Legible finite) :
    Numbers α finite where
  numeral := decimal
  real a := signedDecimal (Literal.text a)
  agree a ha := by
    rcases hlegible a ha with ⟨hnumeral, -⟩ | ⟨s, htext, hnumeral, -⟩
    · exact Or.inl ⟨hnumeral, (signedDecimal_numeral hnumeral).symm⟩
    · exact Or.inr ⟨s, htext, hnumeral, by rw [htext, signedDecimal_negative]⟩

end Numbers

end Formula

end Fluxion

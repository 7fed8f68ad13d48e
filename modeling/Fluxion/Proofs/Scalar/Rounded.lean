import Fluxion.Proofs.Scalar.Lawful
import Fluxion.Proofs.Simplify.Regular

/-!
# Laws of rounded arithmetic

Doubles have no associative addition, and yet not every operation on them loses something: a neutral
number is neutral, a zero factor makes a finite product zero, and what is finite was computed from
something finite. These laws are `RoundedScalar`. Numbers are compared by `Scalar.same`, which does
not tell zeros of different signs apart; a quotient by zero does, but is not finite.

From the laws for one operation follow those for a chain of them: neutral operands can be left out
(`RoundedScalar.foldl_filter`), and zeros decide (`RoundedScalar.foldl_mul_of_zero`,
`RoundedScalar.foldl_div_of_zero`, `RoundedScalar.foldl_pow_of_zero`).
-/

namespace Fluxion

/-- Numbers of which some are finite, computed with up to rounding. -/
class RoundedScalar (α : Type) [Scalar α] extends LawfulScalar α where
  /-- The number is neither infinite nor undefined. -/
  IsFinite : α → Prop
  same_symm {a b : α} : Scalar.same a b = true → Scalar.same b a = true
  same_trans {a b c : α} :
    Scalar.same a b = true → Scalar.same b c = true → Scalar.same a c = true
  eq_of_same {a b : α} :
    Scalar.same a b = true → Scalar.same a (Scalar.ofNat 0) = false → a = b
  isFinite_of_same {a b : α} : Scalar.same a b = true → IsFinite a → IsFinite b
  near_of_same {a b : α} : IsFinite a → Scalar.same a b = true → Scalar.near a b = true
  isFinite_left {op : NaryOp} {a b : α} :
    op ≠ .pow → IsFinite b → IsFinite (op.apply a b) → IsFinite a
  apply_congr {op : NaryOp} {a a' b b' : α} : op ≠ .pow → Scalar.same a a' = true →
    Scalar.same b b' = true → IsFinite (op.apply a b) →
      Scalar.same (op.apply a b) (op.apply a' b') = true
  apply_neutral {op : NaryOp} {a b : α} : op ≠ .pow → IsFinite a →
    Scalar.same b (Scalar.ofNat op.neutral) = true → Scalar.same (op.apply a b) a = true
  neutral_apply {op : NaryOp} {a b : α} : op.commutes = true → IsFinite b →
    Scalar.same a (Scalar.ofNat op.neutral) = true → Scalar.same (op.apply a b) b = true
  mul_of_zero {a b : α} : IsFinite (Scalar.mul a b) →
    Scalar.same a (Scalar.ofNat 0) = true ∨ Scalar.same b (Scalar.ofNat 0) = true →
      Scalar.same (Scalar.mul a b) (Scalar.ofNat 0) = true
  div_of_zero {a b : α} : IsFinite (Scalar.div a b) → Scalar.same a (Scalar.ofNat 0) = true →
    Scalar.same (Scalar.div a b) (Scalar.ofNat 0) = true
  pow_one (a : α) : Scalar.pow a (Scalar.ofNat 1) = a
  pow_zero {a b : α} : Scalar.same b (Scalar.ofNat 0) = true → Scalar.pow a b = Scalar.ofNat 1
  one_pow (b : α) : Scalar.pow (Scalar.ofNat 1) b = Scalar.ofNat 1
  /-- A power of zero or of something that is not finite is such a number again. -/
  pow_of_extreme {a b : α} : IsFinite b → Scalar.same b (Scalar.ofNat 0) = false →
    (Scalar.same a (Scalar.ofNat 0) = true ∨ ¬IsFinite a) →
      (Scalar.same (Scalar.pow a b) (Scalar.ofNat 0) = true ∨ ¬IsFinite (Scalar.pow a b))
  func_congr (f : Func) {a b : α} : Scalar.same a b = true →
    Scalar.same (f.apply a) (f.apply b) = true

namespace RoundedScalar

variable {α : Type} [Scalar α] [RoundedScalar α] {op : NaryOp} {a a' : α} {bs bs' : List α}

/-! ## Chains of operations -/

section

variable (hop : op ≠ .pow) (hbs : ∀ b ∈ bs, IsFinite b)

include hop hbs

/-- A finite result was finite all along. -/
theorem isFinite_of_foldl (h : IsFinite (bs.foldl op.apply a)) : IsFinite a := by
  induction bs generalizing a with
  | nil => exact h
  | cons b bs ih =>
    obtain ⟨hb, hbs⟩ := List.forall_mem_cons.1 hbs
    exact isFinite_left hop hb (ih hbs h)

/-- The same from left to right, as a finite result has only finite ones before it. -/
theorem foldl_congr (ha : Scalar.same a a' = true)
    (hsame : List.Forall₂ (fun b b' => Scalar.same b b' = true) bs bs')
    (h : IsFinite (bs.foldl op.apply a)) :
    Scalar.same (bs.foldl op.apply a) (bs'.foldl op.apply a') = true := by
  induction hsame generalizing a a' with
  | nil => exact ha
  | @cons b b' bs bs' hb _ ih =>
    obtain ⟨-, hbs⟩ := List.forall_mem_cons.1 hbs
    exact ih hbs (apply_congr hop ha hb (isFinite_of_foldl hop hbs h)) h

/-- Operands that are neutral can be left out. -/
theorem foldl_filter {keep : α → Bool}
    (hkeep : ∀ b ∈ bs, keep b = false → Scalar.same b (Scalar.ofNat op.neutral) = true)
    (h : IsFinite (bs.foldl op.apply a)) :
    Scalar.same ((bs.filter keep).foldl op.apply a) (bs.foldl op.apply a) = true := by
  induction bs generalizing a with
  | nil => exact LawfulScalar.same_refl a
  | cons b bs ih =>
    obtain ⟨hb, hbs⟩ := List.forall_mem_cons.1 hbs
    obtain ⟨hneutral, hkeep⟩ := List.forall_mem_cons.1 hkeep
    have hstep : IsFinite (op.apply a b) := isFinite_of_foldl hop hbs h
    cases hkb : keep b with
    | true =>
      rw [List.filter_cons_of_pos hkb]
      exact ih hbs hkeep h
    | false =>
      rw [List.filter_cons_of_neg (Bool.eq_false_iff.1 hkb)]
      have hsame : Scalar.same (op.apply a b) a = true :=
        apply_neutral hop (isFinite_left hop hb hstep) (hneutral hkb)
      have hchain := foldl_congr hop hbs hsame
        (List.forall₂_same.2 fun c _ => LawfulScalar.same_refl c) h
      exact same_trans (ih hbs hkeep (isFinite_of_same hchain h)) (same_symm hchain)

end

/-- Where the neutral number is neutral on either side, the first operand can be left out as well.
-/
theorem onValues_filter (hop : op.commutes = true) (hbs : ∀ b ∈ bs, IsFinite b) {keep : α → Bool}
    (hkeep : ∀ b ∈ bs, keep b = false → Scalar.same b (Scalar.ofNat op.neutral) = true)
    (h : IsFinite ((Operator.nary op).onValues bs)) :
    Scalar.same ((Operator.nary op).onValues (bs.filter keep)) ((Operator.nary op).onValues bs) =
      true := by
  have hpow : op ≠ .pow := by rintro rfl; cases hop
  induction bs with
  | nil => exact LawfulScalar.same_refl _
  | cons b bs ih =>
    obtain ⟨hb, hbs⟩ := List.forall_mem_cons.1 hbs
    obtain ⟨hneutral, hkeep⟩ := List.forall_mem_cons.1 hkeep
    cases hkb : keep b with
    | true =>
      rw [List.filter_cons_of_pos hkb]
      exact foldl_filter hpow hbs hkeep h
    | false =>
      rw [List.filter_cons_of_neg (Bool.eq_false_iff.1 hkb)]
      cases bs with
      | nil => exact same_symm (hneutral hkb)
      | cons c bs =>
        obtain ⟨hc, hbs'⟩ := List.forall_mem_cons.1 hbs
        -- the first operand is neutral to the second, and then to all that follow
        have hchain : Scalar.same (bs.foldl op.apply (op.apply b c)) (bs.foldl op.apply c) = true :=
          foldl_congr hpow hbs' (neutral_apply hop hc (hneutral hkb))
            (List.forall₂_same.2 fun c _ => LawfulScalar.same_refl c) h
        exact same_trans (ih hbs hkeep (isFinite_of_same hchain h)) (same_symm hchain)

/-- A finite product with a factor zero is zero. -/
theorem foldl_mul_of_zero (hbs : ∀ b ∈ bs, IsFinite b) (h : IsFinite (bs.foldl Scalar.mul a))
    (hzero : Scalar.same a (Scalar.ofNat 0) = true ∨
      ∃ b ∈ bs, Scalar.same b (Scalar.ofNat 0) = true) :
    Scalar.same (bs.foldl Scalar.mul a) (Scalar.ofNat 0) = true := by
  induction bs generalizing a with
  | nil => exact hzero.resolve_right fun ⟨_, hb, _⟩ => by cases hb
  | cons b bs ih =>
    obtain ⟨-, hbs⟩ := List.forall_mem_cons.1 hbs
    have hop : NaryOp.mul ≠ .pow := by decide
    have hstep : IsFinite (Scalar.mul a b) := isFinite_of_foldl hop hbs h
    refine ih hbs h ?_
    rcases hzero with ha | ⟨c, hc, hzero⟩
    · exact .inl (mul_of_zero hstep (.inl ha))
    rcases List.mem_cons.1 hc with rfl | hc
    · exact .inl (mul_of_zero hstep (.inr hzero))
    · exact .inr ⟨c, hc, hzero⟩

/-- A finite quotient of zero is zero. -/
theorem foldl_div_of_zero (hbs : ∀ b ∈ bs, IsFinite b) (h : IsFinite (bs.foldl Scalar.div a))
    (ha : Scalar.same a (Scalar.ofNat 0) = true) :
    Scalar.same (bs.foldl Scalar.div a) (Scalar.ofNat 0) = true := by
  induction bs generalizing a with
  | nil => exact ha
  | cons b bs ih =>
    obtain ⟨-, hbs⟩ := List.forall_mem_cons.1 hbs
    have hop : NaryOp.div ≠ .pow := by decide
    have hstep : IsFinite (Scalar.div a b) := isFinite_of_foldl hop hbs h
    exact ih hbs h (div_of_zero hstep ha)

/-! ## Chains of powers -/

/-- Exponents that are one can be left out. -/
theorem foldl_pow_filter {keep : α → Bool}
    (hkeep : ∀ b ∈ bs, keep b = false → Scalar.same b (Scalar.ofNat 1) = true) :
    (bs.filter keep).foldl Scalar.pow a = bs.foldl Scalar.pow a := by
  induction bs generalizing a with
  | nil => rfl
  | cons b bs ih =>
    obtain ⟨hone, hkeep⟩ := List.forall_mem_cons.1 hkeep
    cases hkb : keep b with
    | true =>
      rw [List.filter_cons_of_pos hkb]
      exact ih hkeep
    | false =>
      rw [List.filter_cons_of_neg (Bool.eq_false_iff.1 hkb), ih hkeep, List.foldl_cons,
        LawfulScalar.eq_of_same_ofNat b 0 (hone hkb), pow_one]

theorem foldl_one_pow (bs : List α) : bs.foldl Scalar.pow (Scalar.ofNat 1) = Scalar.ofNat 1 := by
  induction bs with
  | nil => rfl
  | cons b bs ih => rw [List.foldl_cons, one_pow, ih]

/-- With an exponent zero the power is one, whatever comes before and after. -/
theorem foldl_pow_of_zero (h : ∃ b ∈ bs, Scalar.same b (Scalar.ofNat 0) = true) :
    bs.foldl Scalar.pow a = Scalar.ofNat 1 := by
  induction bs generalizing a with
  | nil => obtain ⟨_, hb, _⟩ := h; cases hb
  | cons b bs ih =>
    obtain ⟨c, hc, hzero⟩ := h
    rcases List.mem_cons.1 hc with rfl | hc
    · rw [List.foldl_cons, pow_zero hzero, foldl_one_pow]
    · exact ih ⟨c, hc, hzero⟩

/-- A power of zero is zero or not finite. -/
theorem foldl_pow_of_extreme
    (hbs : ∀ b ∈ bs, IsFinite b ∧ Scalar.same b (Scalar.ofNat 0) = false)
    (ha : Scalar.same a (Scalar.ofNat 0) = true ∨ ¬IsFinite a) :
    Scalar.same (bs.foldl Scalar.pow a) (Scalar.ofNat 0) = true ∨
      ¬IsFinite (bs.foldl Scalar.pow a) := by
  induction bs generalizing a with
  | nil => exact ha
  | cons b bs ih =>
    obtain ⟨⟨hb, hzero⟩, hbs⟩ := List.forall_mem_cons.1 hbs
    exact ih hbs (pow_of_extreme hb hzero ha)

end RoundedScalar

end Fluxion

import Fluxion.Simplify.Rule

/-!
# Operands that decide the whole

A constant near zero among the factors of a product, as a dividend, as a base or as an exponent
makes the whole a constant, whatever the other operands are. A zero exponent is looked for before a
zero base, so zero to the power of zero is one.
-/

namespace Fluxion.Simplify

variable {α : Type} [Scalar α]

/-- A constant near zero. -/
def isZero (t : Tree α) : Bool := t.isNear (Scalar.ofNat 0)

/-- `a ^ 0 = 1`, for any of the exponents. -/
def powerZero : Tree α → Option (Tree α)
  | .node (.nary .pow) (_ :: exponents) =>
    if exponents.any isZero then some (.num (Scalar.ofNat 1)) else none
  | _ => none

/-- `0 ^ a = 0`. -/
def zeroPower : Tree α → Option (Tree α)
  | .node (.nary .pow) (base :: _) => if isZero base then some (.num (Scalar.ofNat 0)) else none
  | _ => none

/-- `0 / a = 0`, even where `a` could be zero. -/
def divideZero : Tree α → Option (Tree α)
  | .node (.nary .div) (dividend :: _) =>
    if isZero dividend then some (.num (Scalar.ofNat 0)) else none
  | _ => none

/-- `0 * a = 0`, for any of the factors. -/
def multiplyZero : Tree α → Option (Tree α)
  | .node (.nary .mul) factors =>
    if factors.any isZero then some (.num (Scalar.ofNat 0)) else none
  | _ => none

/-- The first of these rules that applies. -/
def shortCircuits : Rule α :=
  Rule.first [Rule.named .powerZero powerZero, Rule.named .zeroPower zeroPower,
    Rule.named .divideZero divideZero, Rule.named .multiplyZero multiplyZero]

/-- One of the exponents is near zero. -/
theorem powerZero_eq_some {t t' : Tree α} (h : powerZero t = some t') :
    ∃ base exponents, t = .node (.nary .pow) (base :: exponents) ∧ exponents.any isZero = true ∧
      t' = .num (Scalar.ofNat 1) := by
  unfold powerZero at h
  split at h
  · simp only [Option.ite_none_right_eq_some, Option.some.injEq] at h
    exact ⟨_, _, rfl, h.1, h.2.symm⟩
  · cases h

/-- The base is near zero. -/
theorem zeroPower_eq_some {t t' : Tree α} (h : zeroPower t = some t') :
    ∃ base exponents, t = .node (.nary .pow) (base :: exponents) ∧ isZero base = true ∧
      t' = .num (Scalar.ofNat 0) := by
  unfold zeroPower at h
  split at h
  · simp only [Option.ite_none_right_eq_some, Option.some.injEq] at h
    exact ⟨_, _, rfl, h.1, h.2.symm⟩
  · cases h

/-- The dividend is near zero. -/
theorem divideZero_eq_some {t t' : Tree α} (h : divideZero t = some t') :
    ∃ dividend divisors, t = .node (.nary .div) (dividend :: divisors) ∧
      isZero dividend = true ∧ t' = .num (Scalar.ofNat 0) := by
  unfold divideZero at h
  split at h
  · simp only [Option.ite_none_right_eq_some, Option.some.injEq] at h
    exact ⟨_, _, rfl, h.1, h.2.symm⟩
  · cases h

/-- One of the factors is near zero. -/
theorem multiplyZero_eq_some {t t' : Tree α} (h : multiplyZero t = some t') :
    ∃ factors, t = .node (.nary .mul) factors ∧ factors.any isZero = true ∧
      t' = .num (Scalar.ofNat 0) := by
  unfold multiplyZero at h
  split at h
  · simp only [Option.ite_none_right_eq_some, Option.some.injEq] at h
    exact ⟨_, rfl, h.1, h.2.symm⟩
  · cases h

/-- A constant is lighter than a power. -/
theorem powerZero_shrinking : Shrinking (powerZero (α := α)) := by
  intro t t' h
  obtain ⟨base, exponents, rfl, -, rfl⟩ := powerZero_eq_some h
  exact Tree.num_lighter _ _ _

theorem zeroPower_shrinking : Shrinking (zeroPower (α := α)) := by
  intro t t' h
  obtain ⟨base, exponents, rfl, -, rfl⟩ := zeroPower_eq_some h
  exact Tree.num_lighter _ _ _

theorem divideZero_shrinking : Shrinking (divideZero (α := α)) := by
  intro t t' h
  obtain ⟨dividend, divisors, rfl, -, rfl⟩ := divideZero_eq_some h
  exact Tree.num_lighter _ _ _

/-- Zero is lighter than a product. -/
theorem multiplyZero_shrinking : Shrinking (multiplyZero (α := α)) := by
  intro t t' h
  obtain ⟨factors, rfl, -, rfl⟩ := multiplyZero_eq_some h
  exact Tree.num_lighter _ _ _

end Fluxion.Simplify

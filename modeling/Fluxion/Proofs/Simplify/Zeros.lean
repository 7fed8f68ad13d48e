import Fluxion.Proofs.Simplify.Settled

/-!
# Zeros go through

What becomes of an operator at the root if constants near zero are among its operands. The first
rules of a pass decide that, before anything is evaluated: terms near zero are left out, and a
factor, a dividend or an exponent near zero makes the whole a constant, whatever the other operands
are.
-/

namespace Fluxion

variable {α : Type} [Scalar α]

namespace Simplify

/-- Rules after the first two groups do nothing with a constant. -/
theorem root_of_shortCircuits_left {op : NaryOp} {ts : List (Tree α)} {a : α}
    (h : shortCircuits.left (spliced op (keptOperands op ts)) = .num a) :
    (root (.node (.nary op) ts)).result = .num a := by
  refine root_of_pass_left rfl ?_ (settled_num a)
  rw [pass, Rule.left_inTurn_cons, identities_left, Rule.left_inTurn_cons, h]
  rfl

/-! ## Constants near zero among the operands -/

/-- If all operands are neutral none is left. -/
theorem withoutNeutral_eq_nil {op : NaryOp} {ts : List (Tree α)}
    (h : ∀ t ∈ ts, t.isNear (neutral op) = true) : withoutNeutral op ts = [] := by
  refine List.filter_eq_nil_iff.2 fun t ht => ?_
  rw [h t ht]
  exact Bool.false_ne_true

/-- A sum of constants near zero is zero. -/
theorem root_add_zeros {ts : List (Tree α)} (h : ∀ t ∈ ts, isZero t = true) :
    (root (.node (.nary .add) ts)).result = .num (Scalar.ofNat 0) := by
  have hkept : keptOperands .add ts = [] := withoutNeutral_eq_nil h
  refine root_of_shortCircuits_left ?_
  rw [hkept]
  rfl

/-- Subtrahends near zero leave a constant as it is. -/
theorem root_sub_zeros {a : α} {ts : List (Tree α)} (h : ∀ t ∈ ts, isZero t = true) :
    (root (.node (.nary .sub) (.num a :: ts))).result = .num a := by
  have hkept : keptOperands .sub (.num a :: ts) = [.num a] :=
    congrArg (Tree.num a :: ·) (withoutNeutral_eq_nil h)
  refine root_of_shortCircuits_left ?_
  rw [hkept]
  rfl

/-- A constant among the operands that is near zero is found. -/
theorem any_isZero {a : α} {ts : List (Tree α)} (hmem : .num a ∈ ts)
    (hzero : Scalar.isZero a = true) : ts.any isZero = true :=
  List.any_eq_true.2 ⟨_, hmem, hzero⟩

/-- A factor near zero is what is left of a product, unless it is replaced by zero. -/
theorem root_mul_zero {a : α} {ts : List (Tree α)} (hmem : .num a ∈ ts)
    (hzero : Scalar.isZero a = true) (hone : Scalar.isOne a = false) :
    (root (.node (.nary .mul) ts)).result = .num a ∨
      (root (.node (.nary .mul) ts)).result = .num (Scalar.ofNat 0) := by
  have hneutral : (Tree.num a).isNear (neutral .mul) = false := hone
  have hkept : .num a ∈ keptOperands .mul ts :=
    List.mem_filter.2 ⟨hmem, by rw [hneutral]; rfl⟩
  -- a zero is not near one, so it is not left out as neutral
  match hus : keptOperands .mul ts with
  | [] =>
    rw [hus] at hkept
    cases hkept
  | [u] =>
    rw [hus, List.mem_singleton] at hkept
    refine Or.inl (root_of_shortCircuits_left ?_)
    rw [hus, ← hkept]
    rfl
  | u :: w :: us =>
    rw [hus] at hkept
    have hfactor : multiplyZero (.node (.nary .mul) (u :: w :: us)) =
        some (.num (Scalar.ofNat 0)) := if_pos (any_isZero hkept hzero)
    refine Or.inr (root_of_shortCircuits_left ?_)
    rw [hus, spliced, shortCircuits, Rule.left_first_cons_of_none _ rfl,
      Rule.left_first_cons_of_none _ rfl, Rule.left_first_cons_of_none _ rfl]
    · exact Rule.left_first_named _ hfactor
    · exact fun h => by cases h
    · exact fun _ h => by cases h

/-- A dividend near zero is what is left of a quotient, unless it is replaced by zero. -/
theorem root_div_zero {a : α} (ts : List (Tree α)) (hzero : Scalar.isZero a = true) :
    (root (.node (.nary .div) (.num a :: ts))).result = .num a ∨
      (root (.node (.nary .div) (.num a :: ts))).result = .num (Scalar.ofNat 0) := by
  have hkept : keptOperands .div (.num a :: ts) = .num a :: withoutNeutral .div ts := rfl
  cases hus : withoutNeutral .div ts with
  | nil =>
    refine Or.inl (root_of_shortCircuits_left ?_)
    rw [hkept, hus]
    rfl
  | cons u us =>
    have hdividend : divideZero (.node (.nary .div) (.num a :: u :: us)) =
        some (.num (Scalar.ofNat 0)) := if_pos hzero
    refine Or.inr (root_of_shortCircuits_left ?_)
    rw [hkept, hus, spliced, shortCircuits, Rule.left_first_cons_of_none _ rfl,
      Rule.left_first_cons_of_none _ rfl]
    · exact Rule.left_first_named _ hdividend
    · exact fun h => by cases h
    · exact fun _ h => by cases h

/-- An exponent near zero makes a power one, whatever the base is. -/
theorem root_pow_zero {a : α} {t : Tree α} {ts : List (Tree α)} (hmem : .num a ∈ ts)
    (hzero : Scalar.isZero a = true) (hone : Scalar.isOne a = false) :
    (root (.node (.nary .pow) (t :: ts))).result = .num (Scalar.ofNat 1) := by
  have hneutral : (Tree.num a).isNear (neutral .pow) = false := hone
  have hkept : keptOperands .pow (t :: ts) = t :: withoutNeutral .pow ts := rfl
  have hexponent : .num a ∈ withoutNeutral .pow ts :=
    List.mem_filter.2 ⟨hmem, by rw [hneutral]; rfl⟩
  obtain ⟨u, us, hus⟩ := List.exists_cons_of_ne_nil (List.ne_nil_of_mem hexponent)
  rw [hus] at hexponent
  have hpower : powerZero (.node (.nary .pow) (t :: u :: us)) = some (.num (Scalar.ofNat 1)) :=
    if_pos (any_isZero hexponent hzero)
  refine root_of_shortCircuits_left ?_
  rw [hkept, hus, spliced, shortCircuits]
  · exact Rule.left_first_named _ hpower
  · exact fun h => by cases h
  · exact fun _ h => by cases h

end Simplify

end Fluxion

import Fluxion.Proofs.Expr.Smooth
import Mathlib.Analysis.Calculus.ContDiff.Operations
import Mathlib.Analysis.Calculus.IteratedDeriv.Lemmas

/-!
# Derivatives of any order are derivatives

The derivative of order `n` is differentiated and simplified `n` times, and has the value of the
`n`-th derivative of the function that the expression is (`Expr.eval_nthDerivative`). That takes an
expression which is defined around the point, and exact comparisons of constants. It also takes that
powers keep their sign when simplification makes one of two (`Expr.KeepsSigns`), or else the value
may be wrong (`Expr.not_eval_nthDerivative`).

Each round passes on that the expression is smooth at the points around (`Expr.Smooth`), and that
its value there is the derivative of the value that it had the round before.
-/

open Topology

namespace Fluxion

/-! ## The constants that are compared -/

section

variable {α : Type} [Scalar α]

/-- The comparisons made while the derivative of the given order is taken. -/
def Tree.nthDerivativeTests (v : String) (t : Tree α) : ℕ → List (Test α)
  | 0 => []
  | n + 1 =>
    match t.toExpr with
    | .ok e =>
      (e.derivative v).toTree.simplifyTests ++ (e.simplifiedDerivative v).nthDerivativeTests v n
    | .error _ => []

/-- The comparisons of one derivative more are made before those of the rest. -/
theorem Expr.nthDerivativeTests_toTree_succ (v : String) (e : Expr α) (n : ℕ) :
    e.toTree.nthDerivativeTests v (n + 1) = (e.derivative v).toTree.simplifyTests ++
      (e.derivative v).normalForm.nthDerivativeTests v n := by
  rw [Tree.nthDerivativeTests, toExpr_toTree]
  rfl

end

/-! ## Derivatives along the line of a variable -/

/-- The derivative of a function that has a smooth one is one degree smoother. -/
theorem contDiffAt_succ_of_hasDerivAt {f f' : ℝ → ℝ} {x : ℝ} {n : ℕ}
    (h : ∀ᶠ y in 𝓝 x, HasDerivAt f (f' y) y) (hf' : ContDiffAt ℝ n f' x) :
    ContDiffAt ℝ (n + 1 : ℕ) f x := by
  let span : ℝ ≃L[ℝ] ℝ →L[ℝ] ℝ := ContinuousLinearMap.toSpanSingletonCLE
  have hcont : ContDiffAt ℝ n (fun y => span (f' y)) x := span.contDiff.contDiffAt.comp x hf'
  exact contDiffAt_succ_iff_hasFDerivAt.2 ⟨_, ⟨_, h, fun y hy => HasDerivAt.hasFDerivAt hy⟩, hcont⟩

/-- A derivative around a point may be taken first. -/
theorem iteratedDeriv_succ_of_hasDerivAt {f f' : ℝ → ℝ} {x : ℝ} (n : ℕ)
    (h : ∀ᶠ y in 𝓝 x, HasDerivAt f (f' y) y) :
    iteratedDeriv (n + 1) f x = iteratedDeriv n f' x := by
  rw [iteratedDeriv_succ']
  exact Filter.EventuallyEq.iteratedDeriv_eq n (h.mono fun y hy => hy.deriv)

/-- A point with variables of any sign, at which logarithms are taken of positive numbers only. -/
def Point.anySign (ρ : String → ℝ) (known : String → Prop) : Point where
  ρ := ρ
  known := known
  positive := False
  pos h := h.elim
  logs := True

namespace Expr

open Simplify

section

variable {σ : String → ℝ} {known : String → Prop} {v : String} {x y : ℝ} {e : Expr ℝ}

/-- Along the line on which the variable changes, the derivative of a smooth expression has the
values of its derivative. -/
theorem Smooth.hasDerivAt_along (h : e.Smooth (.anySign (Function.update σ v y) known)) :
    HasDerivAt (e.along σ v) ((e.derivative v).along σ v y) y := by
  have hregular : e.Regular (Function.update σ v y) := h.regular trivial
  have hderiv : HasDerivAt (e.along (Function.update σ v y) v) _ _ := hregular.differentiates
  have hline : e.along (Function.update σ v y) v = e.along σ v := by
    funext z
    rw [along, along, Function.update_idem]
  rw [hline, Function.update_self] at hderiv
  exact hderiv

/-- Around a point, each simplified derivative is the derivative of the one before. -/
theorem exists_nthDerivative (n : ℕ)
    (h : ∀ᶠ y in 𝓝 x, e.Smooth (.anySign (Function.update σ v y) known))
    (hexact : ∀ c ∈ e.toTree.nthDerivativeTests v n, c.Exact) :
    ∃ d : Expr ℝ, e.toTree.nthDerivative v n = .ok d.toTree ∧ d.NamesIn known ∧
      ContDiffAt ℝ n (e.along σ v) x ∧ d.along σ v x = iteratedDeriv n (e.along σ v) x := by
  have hderiv := h.mono fun y hy => hy.hasDerivAt_along
  induction n generalizing e with
  | zero =>
    refine ⟨e, ?_, h.self_of_nhds.ready.namesIn, ?_, by rw [iteratedDeriv_zero]⟩
    · rw [Tree.nthDerivative, toExpr_toTree]
      rfl
    · refine contDiffAt_zero.2 ⟨_, hderiv, fun y hy => ?_⟩
      exact HasDerivAt.continuousAt hy |>.continuousWithinAt
  | succ n ih =>
    rw [nthDerivativeTests_toTree_succ, List.forall_mem_append] at hexact
    obtain ⟨hround, hlater⟩ := hexact
    -- the first derivative is simplified, and smooth on a neighbourhood as well
    obtain ⟨e₁, htree⟩ := (e.derivative v).isExpr_normalForm
    have hsimplified : ∀ᶠ y in 𝓝 x, e₁.Smooth (.anySign (Function.update σ v y) known) ∧
        e₁.along σ v y = (e.derivative v).along σ v y :=
      h.mono fun y hy => (hy.derivative id trivial v).smooth_normalForm id hround htree
    have hsmooth := hsimplified.mono fun y hy => hy.1
    -- so the induction hypothesis applies to it: its derivatives are those of `e`, one order on
    have hderiv₁ : ∀ᶠ y in 𝓝 x, HasDerivAt (e.along σ v) (e₁.along σ v y) y := by
      filter_upwards [hderiv, hsimplified] with y hy hy₁
      rw [hy₁.2]
      exact hy
    rw [← htree] at hlater
    obtain ⟨d, hd, hnames, hcont, hvalue⟩ :=
      ih hsmooth hlater (hsmooth.mono fun y hy => hy.hasDerivAt_along)
    refine ⟨d, ?_, hnames, contDiffAt_succ_of_hasDerivAt hderiv₁ hcont, ?_⟩
    · rw [nthDerivative_toTree_succ, ← htree, hd]
    · rw [hvalue, iteratedDeriv_succ_of_hasDerivAt n hderiv₁]

end

/-! ## A power of a square -/

theorem ordinary_num {a : ℝ} (h : 3 / 2 ≤ a) : Ordinary (.num a) := by
  have hnear : ∀ n : ℕ, n ≤ 1 → Scalar.near a (Scalar.ofNat n) = false := by
    intro n hn
    refine Bool.eq_false_iff.2 fun hnear => ?_
    have hn' : (n : ℝ) ≤ 1 := by exact_mod_cast hn
    have hless := (abs_lt.1 ((Scalar.near_real_iff _ _).1 hnear)).2
    rw [Scalar.ofNat_real] at hless
    norm_num at hless
    linarith
  exact ⟨hnear 0 (Nat.zero_le 1), hnear 1 le_rfl⟩

section

variable (x : String)

/-- A variable times itself is simplified to a square. -/
theorem normalizesTo_square :
    (binary .mul (var x) (var x) : Expr ℝ).NormalizesTo (.node (.nary .pow) [.var x, .num 2]) := by
  have hsquare : Reduces (.node (.nary .mul) [.var x, .var x] : Tree ℝ)
      (.node (.nary .pow) [.var x, .num 2]) := by
    simpa using reduces_square (α := ℝ) (x := x)
  exact normalizesTo_nary (.cons (normalizesTo_var x) (.cons (normalizesTo_var x) .nil)) hsquare

/-- `(x * x)' = 1 * x + x * 1 = x * 2`. -/
theorem normalizesTo_derivative_square :
    ((binary .mul (var x) (var x) : Expr ℝ).derivative x).NormalizesTo
      (.node (.nary .mul) [.var x, .num 2]) := by
  have hderivative : (binary .mul (var x) (var x) : Expr ℝ).derivative x =
      nary .add (nary .mul (num (Scalar.ofNat 1)) [var x])
        [nary .mul (var x) [num (Scalar.ofNat 1)]] := by
    simp [binary, derivative, naryDerivative, productTerms, Expr.sum, Expr.product]
  have hleft : (nary .mul (num (Scalar.ofNat 1)) [var x] : Expr ℝ).NormalizesTo (.var x) :=
    normalizesTo_nary (.cons (normalizesTo_num _) (.cons (normalizesTo_var x) .nil))
      (reduces_times_one (Or.inl rfl))
  have hright : (nary .mul (var x) [num (Scalar.ofNat 1)] : Expr ℝ).NormalizesTo (.var x) :=
    normalizesTo_nary (.cons (normalizesTo_var x) (.cons (normalizesTo_num _) .nil))
      (reduces_times_one (Or.inr rfl))
  rw [hderivative]
  refine normalizesTo_nary (.cons hleft (.cons hright .nil)) (reduces_twice ?_ ?_)
  · norm_num
  · exact ordinary_num (by norm_num)

/-- `((x * x) ^ (5 / 2))' = 5 / 2 * (x * x) ^ (5 / 2 - 1) * (x * x)' = 5 * x ^ 3 * x`. -/
theorem normalizesTo_derivative_power :
    ((binary .pow (binary .mul (var x) (var x)) (num (5 / 2)) : Expr ℝ).derivative x).NormalizesTo
      (.node (.nary .mul) [.num 5, .node (.nary .pow) [.var x, .num 3], .var x]) := by
  have hderivative :
      (binary .pow (binary .mul (var x) (var x)) (num (5 / 2)) : Expr ℝ).derivative x =
        nary .mul (num (5 / 2)) [binary .pow (binary .mul (var x) (var x))
          (binary .sub (num (5 / 2)) one), (binary .mul (var x) (var x)).derivative x] := by
    have hbase : (binary .mul (var x) (var x) : Expr ℝ).hasVariable = true := by
      simp [binary, hasVariable, leafNames]
    have hexponent : (num (5 / 2) : Expr ℝ).hasVariable = false := by
      simp [hasVariable, leafNames]
    rw [binary, derivative]
    show powerRule (binary .mul (var x) (var x)) _ (num (5 / 2)) _ = _
    simp only [powerRule, hbase, hexponent]
    rfl
  -- the exponent 5/2 - 1 is evaluated
  have hlowered : (binary .sub (num (5 / 2)) one : Expr ℝ).NormalizesTo (.num (3 / 2)) := by
    have hvalue : Scalar.sub (5 / 2 : ℝ) (Scalar.ofNat 1) = 3 / 2 := by norm_num
    refine normalizesTo_nary (.cons (normalizesTo_num _) (.cons (normalizesTo_num _) .nil)) ?_
    exact hvalue ▸ reduces_sub_one (5 / 2 : ℝ)
  -- then the power of a power becomes one power, which loses the sign of `x`
  have hpower : (binary .pow (binary .mul (var x) (var x)) (binary .sub (num (5 / 2)) one) :
      Expr ℝ).NormalizesTo (.node (.nary .pow) [.var x, .num 3]) := by
    have hvalue : Scalar.mul (2 : ℝ) (3 / 2) = 3 := by
      show (2 : ℝ) * (3 / 2) = 3
      norm_num
    refine normalizesTo_nary (.cons (normalizesTo_square x) (.cons hlowered .nil)) ?_
    exact reduces_power_power hvalue (ordinary_num le_rfl) (ordinary_num (by norm_num))
  have hvalue : Scalar.mul (5 / 2 : ℝ) 2 = 5 := by
    show (5 / 2 : ℝ) * 2 = 5
    norm_num
  rw [hderivative]
  refine normalizesTo_nary (.cons (normalizesTo_num _)
    (.cons hpower (.cons (normalizesTo_derivative_square x) .nil))) ?_
  exact reduces_factors hvalue (ordinary_num (by norm_num)) (ordinary_num (by norm_num)) 3

/-- What the derivative of `(x * x) ^ (5 / 2)` simplifies to. -/
theorem nthDerivative_power :
    (binary .pow (binary .mul (var x) (var x)) (num (5 / 2)) : Expr ℝ).toTree.nthDerivative x 1 =
        .ok (nary .mul (num 5) [binary .pow (var x) (num 3), var x] : Expr ℝ).toTree ∧
      ∀ c ∈ (binary .pow (binary .mul (var x) (var x)) (num (5 / 2)) :
        Expr ℝ).toTree.nthDerivativeTests x 1, c.Exact := by
  obtain ⟨hnormal, hexact⟩ := normalizesTo_derivative_power x
  have htree : (nary .mul (num 5) [binary .pow (var x) (num 3), var x] : Expr ℝ).toTree =
      .node (.nary .mul) [.num 5, .node (.nary .pow) [.var x, .num 3], .var x] := by
    simp [binary, toTree]
  constructor
  · rw [nthDerivative_toTree_succ, hnormal, ← htree, Tree.nthDerivative, toExpr_toTree]
    rfl
  · rw [nthDerivativeTests_toTree_succ, Tree.nthDerivativeTests, List.append_nil]
    exact hexact

end

/-! ## The value of a derivative -/

/-- The expression is differentiable at a point by the rules: no divisor is zero, and the arguments
of logarithms and the bases of powers are positive. -/
structure Defined (ρ : String → ℝ) (e : Expr ℝ) : Prop where
  divisors : ∀ a ds, nary .div a ds ∈ e.parts → ∀ d ∈ ds, d.value ρ ≠ 0
  arguments : ∀ a, func .ln a ∈ e.parts → 0 < a.value ρ
  bases : ∀ b es, nary .pow b es ∈ e.parts → 0 < b.value ρ

/-- Powers that simplification makes one keep their sign: where the base of a power simplifies to a
power, the base of that one is positive, or the exponents of the former simplify to whole numbers of
at least one. -/
def KeepsSigns (ρ : String → ℝ) (e : Expr ℝ) : Prop :=
  ∀ b es, nary .pow b es ∈ e.parts → ∀ c us, b.normalForm = .node (.nary .pow) (c :: us) →
    0 < c.value ρ ∨ ∀ d ∈ es, ∃ k : ℕ, d.normalForm = .num (k + 1)

/-- What is defined at a point and loses no sign there is smooth. -/
theorem Defined.smooth {ρ : String → ℝ} {known : String → Prop} {e : Expr ℝ} (h : e.Defined ρ)
    (hsigns : e.KeepsSigns ρ) (hnames : e.NamesIn known) : e.Smooth (.anySign ρ known) := by
  refine smooth_of_parts hnames h.divisors (fun _ => h.arguments) fun b es hmem hready => ?_
  have hpos : 0 < b.value ρ := h.bases b es hmem
  by_cases hwhole : ∀ d ∈ es, ∃ k : ℕ, d.normalForm = .num (k + 1)
  · refine ⟨Or.inr ⟨Or.inl hpos.ne', fun d hd => ?_, id⟩, smoothPowers_of_exponents hpos hwhole⟩
    obtain ⟨k, hk⟩ := hwhole d hd
    exact ⟨k + 1, by rw [hk, Nat.cast_succ]⟩
  · obtain ⟨hb, hes⟩ := List.forall_mem_cons.1 hready
    have hbase : PositiveBase (.anySign ρ known) b := by
      refine ⟨hpos, fun _ c us hpower => ?_⟩
      have hsettled : (Tree.node (.nary .pow) (c :: us)).Settled :=
        hpower ▸ b.toTree.simplify_settled.self
      rw [ground_of_settled hsettled]
      exact (hsigns b es hmem c us hpower).resolve_right hwhole
    exact ⟨Or.inl hbase, hbase.smoothPowers hb hes⟩

/-- `(x * x) ^ (5 / 2)` is defined where `x` is not zero. -/
theorem defined_power {ρ : String → ℝ} {x : String} (hx : ρ x ≠ 0) :
    (binary .pow (binary .mul (var x) (var x)) (num (5 / 2))).Defined ρ := by
  refine ⟨fun a ds hmem => ?_, fun a hmem => ?_, fun b es hmem => ?_⟩
  · simp [parts, binary] at hmem
  · simp [parts, binary] at hmem
  · simp [parts, binary] at hmem
    obtain ⟨rfl, -⟩ := hmem
    show 0 < (binary .mul (var x) (var x)).value ρ
    rw [value_binary, value_var]
    exact mul_self_pos.2 hx

/-- There `x * x` simplifies to a power of `x`, which has to be positive. -/
theorem keepsSigns_power {ρ : String → ℝ} {x : String} (hx : 0 < ρ x) :
    (binary .pow (binary .mul (var x) (var x)) (num (5 / 2))).KeepsSigns ρ := by
  intro b es hmem c us hpower
  simp [parts, binary] at hmem
  obtain ⟨rfl, -⟩ := hmem
  have hsquare : (nary .mul (var x) [var x] : Expr ℝ).normalForm = _ := (normalizesTo_square x).1
  rw [hsquare] at hpower
  cases hpower
  exact Or.inl (by rwa [Tree.value_var])

/-- Around a point where the expression is defined, the derivative of order `n` evaluates to the
`n`-th derivative of the function that the expression is of `v`, if powers keep their signs and no
test of a constant is inexact. -/
theorem eval_nthDerivative {e : Expr ℝ} {v : String} {bindings : Bindings ℝ} {x : ℝ} {n : ℕ}
    (hbound : e.NamesIn fun z => z = v ∨ (bindings.lookup z).isSome)
    (hdefined : ∀ᶠ y in 𝓝 x, e.Defined (Bindings.assign ((v, y) :: bindings)))
    (hsigns : ∀ᶠ y in 𝓝 x, e.KeepsSigns (Bindings.assign ((v, y) :: bindings)))
    (hexact : ∀ c ∈ e.toTree.nthDerivativeTests v n, c.Exact) :
    ∃ (f : ℝ → ℝ) (d : Expr ℝ), (∀ y, e.eval ((v, y) :: bindings) = .ok (f y)) ∧
      e.toTree.nthDerivative v n = .ok d.toTree ∧ ContDiffAt ℝ n f x ∧
        d.eval ((v, x) :: bindings) = .ok (iteratedDeriv n f x) := by
  have hline : ∀ (y : ℝ) (d : Expr ℝ), d.along (Bindings.assign ((v, x) :: bindings)) v y =
      d.value (Bindings.assign ((v, y) :: bindings)) := by
    intro y d
    rw [along, ← assign_cons]
  have hsmooth : ∀ᶠ y in 𝓝 x, e.Smooth (.anySign
      (Function.update (Bindings.assign ((v, x) :: bindings)) v y)
      fun z => z = v ∨ (bindings.lookup z).isSome) := by
    filter_upwards [hdefined, hsigns] with y hy hy'
    rw [← assign_cons]
    exact hy.smooth hy' hbound
  obtain ⟨d, hd, hnames, hcont, hvalue⟩ := exists_nthDerivative n hsmooth hexact
  refine ⟨e.along (Bindings.assign ((v, x) :: bindings)) v, d, fun y => ?_, hd, hcont, ?_⟩
  · rw [hline]
    exact eval_eq_ok (covers_cons hbound y)
  · rw [← hvalue, hline]
    exact eval_eq_ok (covers_cons hnames x)

/-- The first derivative of `(x * x) ^ (5 / 2)` at `x = 2`. -/
theorem eval_nthDerivative_power :
    (binary .pow (binary .mul (var "x") (var "x")) (num (5 / 2)) : Expr ℝ).NamesIn
        (fun z => z = "x" ∨ (([] : Bindings ℝ).lookup z).isSome) ∧
      (∀ᶠ y in 𝓝 (2 : ℝ), (binary .pow (binary .mul (var "x") (var "x")) (num (5 / 2))).Defined
        (Bindings.assign [("x", y)])) ∧
      (∀ᶠ y in 𝓝 (2 : ℝ), (binary .pow (binary .mul (var "x") (var "x")) (num (5 / 2))).KeepsSigns
        (Bindings.assign [("x", y)])) ∧
      (∀ c ∈ (binary .pow (binary .mul (var "x") (var "x")) (num (5 / 2)) :
        Expr ℝ).toTree.nthDerivativeTests "x" 1, c.Exact) ∧
      ∃ (f : ℝ → ℝ) (d : Expr ℝ),
        (∀ y, (binary .pow (binary .mul (var "x") (var "x")) (num (5 / 2))).eval [("x", y)] =
          .ok (f y)) ∧
        (binary .pow (binary .mul (var "x") (var "x")) (num (5 / 2))).toTree.nthDerivative "x" 1 =
          .ok d.toTree ∧
        ContDiffAt ℝ 1 f 2 ∧ d.eval [("x", 2)] = .ok (iteratedDeriv 1 f 2) := by
  have hx : ∀ y : ℝ, Bindings.assign [("x", y)] "x" = y := fun y => rfl
  have hpos : ∀ᶠ y in 𝓝 (2 : ℝ), 0 < y := lt_mem_nhds two_pos
  have hbound : (binary .pow (binary .mul (var "x") (var "x")) (num (5 / 2)) : Expr ℝ).NamesIn
      (fun z => z = "x" ∨ (([] : Bindings ℝ).lookup z).isSome) := by
    simp [namesIn_binary]
  have hdefined : ∀ᶠ y in 𝓝 (2 : ℝ),
      (binary .pow (binary .mul (var "x") (var "x")) (num (5 / 2))).Defined
        (Bindings.assign [("x", y)]) :=
    hpos.mono fun y hy => defined_power (by rw [hx]; exact hy.ne')
  have hsigns : ∀ᶠ y in 𝓝 (2 : ℝ),
      (binary .pow (binary .mul (var "x") (var "x")) (num (5 / 2))).KeepsSigns
        (Bindings.assign [("x", y)]) :=
    hpos.mono fun y hy => keepsSigns_power (by rw [hx]; exact hy)
  obtain ⟨-, hexact⟩ := nthDerivative_power "x"
  exact ⟨hbound, hdefined, hsigns, hexact, eval_nthDerivative hbound hdefined hsigns hexact⟩

/-- Without the condition on signs the value may be wrong: `(x * x) ^ (5 / 2)` is defined around
`x = -1` and has the derivative `-5` there, but what its derivative simplifies to is
`5 * x ^ 3 * x`, with the value `5`. -/
theorem not_eval_nthDerivative :
    (binary .pow (binary .mul (var "x") (var "x")) (num (5 / 2)) : Expr ℝ).NamesIn
        (fun z => z = "x" ∨ (([] : Bindings ℝ).lookup z).isSome) ∧
      (∀ᶠ y in 𝓝 (-1 : ℝ), (binary .pow (binary .mul (var "x") (var "x")) (num (5 / 2))).Defined
        (Bindings.assign [("x", y)])) ∧
      (∀ c ∈ (binary .pow (binary .mul (var "x") (var "x")) (num (5 / 2)) :
        Expr ℝ).toTree.nthDerivativeTests "x" 1, c.Exact) ∧
      ∃ (f : ℝ → ℝ) (d : Expr ℝ),
        (∀ y, (binary .pow (binary .mul (var "x") (var "x")) (num (5 / 2))).eval [("x", y)] =
          .ok (f y)) ∧
        (binary .pow (binary .mul (var "x") (var "x")) (num (5 / 2))).toTree.nthDerivative "x" 1 =
          .ok d.toTree ∧
        HasDerivAt f (-5) (-1) ∧ d.eval [("x", -1)] = .ok 5 ∧
          d.eval [("x", -1)] ≠ .ok (iteratedDeriv 1 f (-1)) := by
  have hx : ∀ y : ℝ, Bindings.assign [("x", y)] "x" = y := fun y => rfl
  have hneg : ∀ᶠ y in 𝓝 (-1 : ℝ), y < 0 := gt_mem_nhds neg_one_lt_zero
  have hbound : (binary .pow (binary .mul (var "x") (var "x")) (num (5 / 2)) : Expr ℝ).NamesIn
      (fun z => z = "x" ∨ (([] : Bindings ℝ).lookup z).isSome) := by
    simp [namesIn_binary]
  obtain ⟨hresult, hexact⟩ := nthDerivative_power "x"
  -- by calculus the derivative of `(y * y) ^ (5 / 2)` at -1 is -5
  have hderiv : HasDerivAt (fun y : ℝ => (y * y) ^ (5 / 2 : ℝ)) (-5) (-1) := by
    have hsquare : HasDerivAt (fun y : ℝ => y * y) (-2) (-1) :=
      ((hasDerivAt_id' (-1 : ℝ)).fun_mul (hasDerivAt_id' (-1))).congr_deriv (by norm_num)
    exact (hsquare.rpow_const (Or.inl (by norm_num))).congr_deriv (by norm_num)
  -- but what the rules leave, `5 * x ^ 3 * x`, has the value 5 there
  have hvalue : (nary .mul (num 5) [binary .pow (var "x") (num 3), var "x"]).eval
      [("x", (-1 : ℝ))] = .ok 5 := by
    have hcovers : Bindings.Covers [("x", (-1 : ℝ))]
        (nary .mul (num 5) [binary .pow (var "x") (num 3), var "x"]) := by
      simp [Bindings.Covers, namesIn_binary]
    have hcube : (-1 : ℝ) ^ (3 : ℝ) = -1 := by
      rw [Real.rpow_ofNat]
      norm_num
    rw [eval_eq_ok hcovers]
    simp [value, hx, hcube]
  refine ⟨hbound, hneg.mono fun y hy => defined_power (by rw [hx]; exact hy.ne), hexact, _, _,
    fun y => ?_, hresult, hderiv, hvalue, ?_⟩
  · rw [eval_eq_ok (covers_cons hbound y), value_binary, value_binary, value_var, value_num, hx]
    rfl
  · rw [hvalue, iteratedDeriv_one, hderiv.deriv]
    intro h
    have := Except.ok.inj h
    norm_num at this

end Expr

end Fluxion

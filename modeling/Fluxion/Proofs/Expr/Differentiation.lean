import Fluxion.Proofs.Expr.Reals
import Fluxion.Proofs.Expr.Variables
import Mathlib.Analysis.SpecialFunctions.Pow.Deriv
import Mathlib.Analysis.SpecialFunctions.Trigonometric.Deriv
import Mathlib.Topology.Algebra.Module.ModuleTopology

/-!
# Derivatives are derivatives

Over the reals the derivative of an expression has, at every point where the rules apply, the value
of the derivative of the expression's value (`Expr.hasDerivAt_eval`). The rules apply where no
divisor is zero, logarithms are taken of positive numbers and powers have positive bases, or a base
with a variable and a whole exponent.

Each rule is shown sound for any expressions that have the values of the derivatives of its
operands; `Differentiates` is the relation that the rules pass on.
-/

namespace Fluxion.Expr

/-! ## Where the rules apply -/

/-- A power can be differentiated at a point: the base is positive there, or it has a variable and
the exponent is constant, a whole number and at least one. -/
def PowerRegular (ρ : String → ℝ) (base exponent : Expr ℝ) : Prop :=
  0 < base.value ρ ∨
    base.hasVariable = true ∧ exponent.hasVariable = false ∧
      ∃ n : ℕ, 1 ≤ n ∧ exponent.value ρ = n

/-- Every power of a chain can be differentiated at a point, the chain being nested to the left. -/
def PowersRegular (ρ : String → ℝ) : Expr ℝ → List (Expr ℝ) → Prop
  | _, [] => True
  | base, e :: es => PowerRegular ρ base e ∧ PowersRegular ρ (binary .pow base e) es

/-- The rules apply at a point: no divisor is zero, the arguments of logarithms are positive, and
all powers can be differentiated. -/
structure Regular (ρ : String → ℝ) (e : Expr ℝ) : Prop where
  divisors : ∀ a ds, nary .div a ds ∈ e.parts → ∀ d ∈ ds, d.value ρ ≠ 0
  arguments : ∀ a, func .ln a ∈ e.parts → 0 < a.value ρ
  powers : ∀ b es, nary .pow b es ∈ e.parts → PowersRegular ρ b es

theorem Regular.mono {ρ : String → ℝ} {e d : Expr ℝ} (h : e.Regular ρ)
    (hparts : ∀ p ∈ d.parts, p ∈ e.parts) : d.Regular ρ where
  divisors a ds hmem := h.divisors a ds (hparts _ hmem)
  arguments a hmem := h.arguments a (hparts _ hmem)
  powers b es hmem := h.powers b es (hparts _ hmem)

/-! ## Values of the parts that the rules put together -/

section

variable (ρ : String → ℝ)

@[simp] theorem value_num (a : ℝ) : (num a).value ρ = a := by rw [value]

@[simp] theorem value_var (x : String) : (var x : Expr ℝ).value ρ = ρ x := by rw [value]

@[simp] theorem value_func (f : Func) (e : Expr ℝ) :
    (func f e).value ρ = f.apply (e.value ρ) := by
  rw [value]

@[simp] theorem value_binary (op : NaryOp) (a b : Expr ℝ) :
    (binary op a b).value ρ = op.apply (a.value ρ) (b.value ρ) := by
  simp [binary, value]

@[simp] theorem value_one : (one : Expr ℝ).value ρ = 1 := by simp [one]

@[simp] theorem value_sum (es : List (Expr ℝ)) :
    (sum es).value ρ = (es.map (value ρ)).sum := by
  cases es with
  | nil => simp [sum]
  | cons e es => rw [sum, value, NaryOp.foldl_add, List.map_cons, List.sum_cons]

@[simp] theorem value_product (es : List (Expr ℝ)) :
    (product es).value ρ = (es.map (value ρ)).prod := by
  cases es with
  | nil => simp [product]
  | cons e es => rw [product, value, NaryOp.foldl_mul, List.map_cons, List.prod_cons]

/-- Divisors one after another make the same value as all of them under one operator. -/
theorem value_quotient (e : Expr ℝ) (es : List (Expr ℝ)) :
    (quotient e es).value ρ = (nary .div e es).value ρ := by
  cases es with
  | nil => rw [quotient, value, List.map_nil, List.foldl_nil]
  | cons d es => rfl

end

/-! ## Soundness of the rules -/

variable (ρ : String → ℝ) (v : String)

/-- The value of an expression along the line through the point on which only `v` changes. -/
noncomputable def along (e : Expr ℝ) (y : ℝ) : ℝ := e.value (Function.update ρ v y)

/-- The second expression has the value of the derivative of the first. -/
def Differentiates (e e' : Expr ℝ) : Prop := HasDerivAt (e.along ρ v) (e'.value ρ) (ρ v)

@[simp] theorem along_self (e : Expr ℝ) : e.along ρ v (ρ v) = e.value ρ := by
  rw [along, Function.update_eq_self]

variable {ρ v}

/-- An expression with the same values has the same derivative. -/
theorem Differentiates.congr {e d e' : Expr ℝ} (h : Differentiates ρ v e e')
    (heq : ∀ ρ, e.value ρ = d.value ρ) : Differentiates ρ v d e' := by
  have hfun : d.along ρ v = e.along ρ v := funext fun y => (heq _).symm
  rw [Differentiates, hfun]
  exact h

/-- It is enough to differentiate any function with these values. -/
theorem Differentiates.of_hasDerivAt {e e' : Expr ℝ} {f : ℝ → ℝ} {d : ℝ}
    (h : HasDerivAt f d (ρ v)) (hf : ∀ y, e.along ρ v y = f y) (hd : e'.value ρ = d) :
    Differentiates ρ v e e' := by
  rw [Differentiates, funext hf, hd]
  exact h

theorem hasDerivAt_sum {ps : List (Expr ℝ × Expr ℝ)}
    (h : ∀ p ∈ ps, Differentiates ρ v p.1 p.2) :
    HasDerivAt (fun y => (ps.map fun p => p.1.along ρ v y).sum)
      (ps.map fun p => p.2.value ρ).sum (ρ v) := by
  induction ps with
  | nil => exact hasDerivAt_const _ _
  | cons p ps ih =>
    simp only [List.map_cons, List.sum_cons]
    exact (h p (List.mem_cons_self ..)).add (ih fun q hq => h q (List.mem_cons_of_mem _ hq))

/-- The terms of the product rule add up to the derivative of the product, times the factors that
come before in all of them. -/
theorem hasDerivAt_prod {ps : List (Expr ℝ × Expr ℝ)}
    (h : ∀ p ∈ ps, Differentiates ρ v p.1 p.2) :
    ∃ d, HasDerivAt (fun y => (ps.map fun p => p.1.along ρ v y).prod) d (ρ v) ∧
      ∀ before : List (Expr ℝ), ((productTerms before ps).map (value ρ)).sum =
        (before.map (value ρ)).prod * d := by
  -- a factor that is passed joins those before, hence for every list of them
  induction ps with
  | nil => exact ⟨0, hasDerivAt_const _ _, fun before => by simp [productTerms]⟩
  | cons p ps ih =>
    obtain ⟨e, e'⟩ := p
    obtain ⟨d, hd, hterms⟩ := ih fun q hq => h q (List.mem_cons_of_mem _ hq)
    have he : HasDerivAt (e.along ρ v) (e'.value ρ) (ρ v) := h (e, e') (List.mem_cons_self ..)
    have hafter : ps.map (fun p => p.1.along ρ v (ρ v)) = (ps.map Prod.fst).map (value ρ) := by
      simp
    have hmul : HasDerivAt (fun y => e.along ρ v y * (ps.map fun p => p.1.along ρ v y).prod)
        (e'.value ρ * ((ps.map Prod.fst).map (value ρ)).prod + e.value ρ * d) (ρ v) :=
      (he.fun_mul hd).congr_deriv (by rw [along_self, hafter])
    refine ⟨_, by simpa only [List.map_cons, List.prod_cons] using hmul, fun before => ?_⟩
    rw [productTerms, List.map_cons, List.sum_cons, hterms, value_product]
    simp only [List.map_append, List.map_cons, List.map_nil, List.prod_append, List.prod_cons,
      List.prod_nil]
    ring

/-- The quotient rule, at a point where the divisor is not zero. -/
theorem Differentiates.quotientRule {a a' b b' : Expr ℝ} (ha : Differentiates ρ v a a')
    (hb : Differentiates ρ v b b') (hne : b.value ρ ≠ 0) :
    Differentiates ρ v (binary .div a b) (quotientRule a a' b b') := by
  have hdiv := HasDerivAt.fun_div ha hb (by rwa [along_self])
  refine .of_hasDerivAt hdiv (fun y => value_binary _ .div a b) ?_
  rw [along_self, along_self]
  simp [Expr.quotientRule]

/-- Divisors are taken in one after another, from the left. -/
theorem Differentiates.quotientDerivative {first numerator' : Expr ℝ} {ps : List (Expr ℝ × Expr ℝ)}
    (h : ∀ p ∈ ps, Differentiates ρ v p.1 p.2) (hne : ∀ p ∈ ps, p.1.value ρ ≠ 0) :
    ∀ {ds : List (Expr ℝ)}, Differentiates ρ v (quotient first ds) numerator' →
      Differentiates ρ v (quotient first (ds ++ ps.map Prod.fst))
        (quotientDerivative first ds numerator' ps) := by
  induction ps generalizing numerator' with
  | nil =>
    intro ds hnumerator
    rw [List.map_nil, List.append_nil]
    exact hnumerator
  | cons p ps ih =>
    obtain ⟨e, e'⟩ := p
    intro ds hnumerator
    have hstep : Differentiates ρ v (quotient first (ds ++ [e])) _ :=
      (hnumerator.quotientRule (h (e, e') (List.mem_cons_self ..))
        (hne (e, e') (List.mem_cons_self ..))).congr fun ρ => by
          simp [value_quotient, value]
    rw [List.map_cons, ← List.singleton_append, ← List.append_assoc]
    exact ih (fun q hq => h q (List.mem_cons_of_mem _ hq))
      (fun q hq => hne q (List.mem_cons_of_mem _ hq)) hstep

/-- The value of an expression without variables does not change along the line. -/
theorem along_of_hasVariable_eq_false {e : Expr ℝ} (h : e.hasVariable = false) (y : ℝ) :
    e.along ρ v y = e.value ρ :=
  value_of_hasVariable_eq_false _ _ h

/-- The power rule in its three forms, as base and exponent have variables or not. -/
theorem Differentiates.powerRule {b b' e e' : Expr ℝ} (hb : Differentiates ρ v b b')
    (he : Differentiates ρ v e e') (hregular : PowerRegular ρ b e) :
    Differentiates ρ v (binary .pow b e) (powerRule b b' e e') := by
  have hvalue : ∀ y, (binary .pow b e).along ρ v y = b.along ρ v y ^ e.along ρ v y :=
    fun y => value_binary _ .pow b e
  cases hbvar : b.hasVariable with
  | false =>
    -- only a positive base may do without a variable
    have hpos : 0 < b.value ρ := hregular.resolve_right fun h => by simp [hbvar] at h
    refine .of_hasDerivAt (HasDerivAt.const_rpow hpos he) (fun y => ?_) ?_
    · rw [hvalue, along_of_hasVariable_eq_false hbvar]
    · simp [Expr.powerRule, hbvar]; ring
  | true =>
    cases hevar : e.hasVariable with
    | false =>
      -- a whole exponent makes up for a base that is not positive
      have hone : b.value ρ ≠ 0 ∨ 1 ≤ e.value ρ := by
        rcases hregular with hpos | ⟨_, _, n, hn, hvalue⟩
        · exact Or.inl hpos.ne'
        · right
          rw [hvalue]
          exact_mod_cast hn
      refine .of_hasDerivAt (HasDerivAt.rpow_const hb (by rwa [along_self])) (fun y => ?_) ?_
      · rw [hvalue, along_of_hasVariable_eq_false hevar]
      · simp [Expr.powerRule, hbvar, hevar]; ring
    | true =>
      have hpos : 0 < b.value ρ := hregular.resolve_right fun h => by simp [hevar] at h
      refine .of_hasDerivAt (HasDerivAt.rpow hb he (by rwa [along_self])) hvalue ?_
      simp [Expr.powerRule, hbvar, hevar]; ring

/-- Exponents are taken in one after another, from the left. -/
theorem Differentiates.powerDerivative {ps : List (Expr ℝ × Expr ℝ)}
    (h : ∀ p ∈ ps, Differentiates ρ v p.1 p.2) :
    ∀ {b b' : Expr ℝ}, Differentiates ρ v b b' → PowersRegular ρ b (ps.map Prod.fst) →
      Differentiates ρ v ((ps.map Prod.fst).foldl (binary .pow) b) (powerDerivative b b' ps) := by
  induction ps with
  | nil => intro b b' hb _; exact hb
  | cons p ps ih =>
    intro b b' hb hregular
    obtain ⟨e, e'⟩ := p
    exact ih (fun q hq => h q (List.mem_cons_of_mem _ hq))
      (hb.powerRule (h (e, e') (List.mem_cons_self ..)) hregular.1) hregular.2

/-- Exponents one after another make the same value as all of them under one operator. -/
theorem value_foldl_pow (ρ : String → ℝ) (b : Expr ℝ) (es : List (Expr ℝ)) :
    (es.foldl (binary .pow) b).value ρ = (nary .pow b es).value ρ := by
  induction es generalizing b with
  | nil => simp [value]
  | cons e es ih =>
    rw [List.foldl_cons, ih]
    simp [value]

/-- The chain rule for each function, for the logarithm of a positive value. -/
theorem Differentiates.funcDerivative {f : Func} {e e' : Expr ℝ} (h : Differentiates ρ v e e')
    (hpos : f = .ln → 0 < e.value ρ) : Differentiates ρ v (func f e) (funcDerivative f e e') := by
  cases f with
  | ln =>
    refine .of_hasDerivAt (HasDerivAt.log h (by rw [along_self]; exact (hpos rfl).ne'))
      (fun y => value_func _ .ln e) ?_
    simp [Expr.funcDerivative]; ring
  | sin =>
    refine .of_hasDerivAt (HasDerivAt.sin h) (fun y => value_func _ .sin e) ?_
    simp [Expr.funcDerivative]
  | cos =>
    refine .of_hasDerivAt (HasDerivAt.cos h) (fun y => value_func _ .cos e) ?_
    simp [Expr.funcDerivative]

/-- The rule for an operator, if the rules for its operands are sound. -/
theorem Differentiates.naryDerivative {op : NaryOp} {e : Expr ℝ} {es : List (Expr ℝ)}
    {d : Expr ℝ → Expr ℝ} (he : Differentiates ρ v e (d e))
    (hes : ∀ a ∈ es, Differentiates ρ v a (d a)) (hregular : (nary op e es).Regular ρ) :
    Differentiates ρ v (nary op e es)
      (naryDerivative op (e, d e) (es.map fun a => (a, d a))) := by
  have hself : nary op e es ∈ (nary op e es).parts := mem_parts_self _
  have hps : ∀ p ∈ es.map (fun a => (a, d a)), Differentiates ρ v p.1 p.2 := by
    intro p hp
    obtain ⟨a, ha, rfl⟩ := List.mem_map.1 hp
    exact hes a ha
  have hfst : (es.map fun a => (a, d a)).map Prod.fst = es := by
    rw [List.map_map]
    exact List.map_id es
  cases op with
  | add =>
    refine .of_hasDerivAt (HasDerivAt.fun_add he (hasDerivAt_sum hps)) (fun y => ?_) ?_
    · rw [along, value, NaryOp.foldl_add, List.map_map]; rfl
    · rw [Expr.naryDerivative, value, NaryOp.foldl_add, List.map_map]; rfl
  | sub =>
    refine .of_hasDerivAt (HasDerivAt.fun_sub he (hasDerivAt_sum hps)) (fun y => ?_) ?_
    · rw [along, value, NaryOp.foldl_sub, List.map_map]; rfl
    · rw [Expr.naryDerivative, value, NaryOp.foldl_sub, List.map_map]; rfl
  | mul =>
    have hall : ∀ p ∈ (e, d e) :: es.map (fun a => (a, d a)), Differentiates ρ v p.1 p.2 :=
      List.forall_mem_cons.2 ⟨he, hps⟩
    obtain ⟨c, hc, hterms⟩ := hasDerivAt_prod hall
    -- the terms of the rule start with no factors before
    refine .of_hasDerivAt hc (fun y => ?_) ?_
    · rw [along, value, NaryOp.foldl_mul, List.map_cons, List.prod_cons, List.map_map]; rfl
    · rw [Expr.naryDerivative, value_sum, hterms, List.map_nil, List.prod_nil, one_mul]
  | div =>
    have hne : ∀ p ∈ es.map (fun a => (a, d a)), p.1.value ρ ≠ 0 := by
      intro p hp
      obtain ⟨a, ha, rfl⟩ := List.mem_map.1 hp
      exact hregular.divisors e es hself a ha
    -- from the numerator alone, with no divisor taken in yet
    have hquotient : Differentiates ρ v (quotient e ([] ++ _)) _ :=
      Differentiates.quotientDerivative hps hne he
    rw [List.nil_append, hfst] at hquotient
    exact hquotient.congr fun ρ => value_quotient ρ e es
  | pow =>
    have hpowers : PowersRegular ρ e ((es.map fun a => (a, d a)).map Prod.fst) := by
      rw [hfst]
      exact hregular.powers e es hself
    have hpower := Differentiates.powerDerivative hps he hpowers
    rw [hfst] at hpower
    exact hpower.congr fun ρ => value_foldl_pow ρ e es

/-- Where the rules apply, the derivative has the value of the derivative. -/
theorem Regular.differentiates {e : Expr ℝ} (h : e.Regular ρ) :
    Differentiates ρ v e (e.derivative v) := by
  induction e using operands_induction with
  | num a =>
    refine .of_hasDerivAt (hasDerivAt_const _ a) (fun y => value_num _ a) ?_
    simp [derivative]
  | var x =>
    -- along `v` any other variable stays what it is
    by_cases hx : x = v
    · subst hx
      refine .of_hasDerivAt (hasDerivAt_id _) (fun y => ?_) ?_
      · rw [along, value_var, Function.update_self]; rfl
      · simp [derivative]
    · refine .of_hasDerivAt (hasDerivAt_const _ (ρ x)) (fun y => ?_) ?_
      · rw [along, value_var, Function.update_of_ne hx]
      · simp [derivative, hx]
  | nary op e es ihe ihes =>
    rw [derivative]
    exact .naryDerivative (d := derivative v) (ihe (h.mono fun p hp => mem_parts_first op es hp))
      (fun a ha => ihes a ha (h.mono fun p hp => mem_parts_other op e ha hp)) h
  | func f e ih =>
    rw [derivative]
    refine (ih (h.mono fun p hp => mem_parts_argument f hp)).funcDerivative ?_
    rintro rfl
    exact h.arguments e (mem_parts_self _)

/-! ## The derivative at a point -/

/-- With a value for `v` put in front, only the value of `v` changes. -/
theorem assign_cons (bindings : Bindings ℝ) (v : String) (x y : ℝ) :
    Bindings.assign ((v, y) :: bindings) =
      Function.update (Bindings.assign ((v, x) :: bindings)) v y := by
  funext z
  by_cases hz : z = v
  · subst hz
    simp [Bindings.assign]
  · rw [Function.update_of_ne hz]
    have hne : (z == v) = false := beq_false_of_ne hz
    simp [Bindings.assign, List.lookup_cons, hne]

/-- Only the variables other than `v` need values besides. -/
theorem covers_cons {e : Expr ℝ} {v : String} {bindings : Bindings ℝ}
    (h : e.NamesIn fun z => z = v ∨ (bindings.lookup z).isSome) (y : ℝ) :
    Bindings.Covers ((v, y) :: bindings) e := by
  intro z hz
  by_cases hzv : z = v
  · simp [hzv]
  · have hne : (z == v) = false := beq_false_of_ne hzv
    simpa [List.lookup_cons, hne] using (h z hz).resolve_left hzv

/-- At a point where the rules apply, an expression whose variables other than `v` have values has a
value for every value of `v`, and the derivative with respect to `v` evaluates to the derivative of
that function. -/
theorem hasDerivAt_eval {e : Expr ℝ} {v : String} {bindings : Bindings ℝ} {x : ℝ}
    (hbound : e.NamesIn fun z => z = v ∨ (bindings.lookup z).isSome)
    (hregular : e.Regular (Bindings.assign ((v, x) :: bindings))) :
    ∃ (f : ℝ → ℝ) (f' : ℝ),
      (∀ y, e.eval ((v, y) :: bindings) = .ok (f y)) ∧
      (e.derivative v).eval ((v, x) :: bindings) = .ok f' ∧ HasDerivAt f f' x := by
  have covers : ∀ y, Bindings.Covers ((v, y) :: bindings) e := covers_cons hbound
  refine ⟨fun y => e.value (Bindings.assign ((v, y) :: bindings)), _,
    fun y => eval_eq_ok (covers y), eval_eq_ok (namesIn_derivative v (covers x)), ?_⟩
  have hv : Bindings.assign ((v, x) :: bindings) v = x := by simp [Bindings.assign]
  have hderiv : HasDerivAt (e.along (Bindings.assign ((v, x) :: bindings)) v) _ _ :=
    hregular.differentiates
  -- giving `v` other values is going along the line of `v`
  have hline : (fun y => e.value (Bindings.assign ((v, y) :: bindings))) =
      e.along (Bindings.assign ((v, x) :: bindings)) v :=
    funext fun y => by rw [along, ← assign_cons]
  rw [hv] at hderiv
  rw [hline]
  exact hderiv

/-- `x ^ 3 / ln y` at `x = -1` and `y = 2`: the base is negative, and the exponent whole. -/
theorem hasDerivAt_eval_cube_div_ln :
    (nary .div (binary .pow (var "x") (num 3)) [func .ln (var "y")] : Expr ℝ).NamesIn
        (fun z => z = "x" ∨ (([("y", 2)] : Bindings ℝ).lookup z).isSome) ∧
      (nary .div (binary .pow (var "x") (num 3)) [func .ln (var "y")]).Regular
        (Bindings.assign [("x", -1), ("y", 2)]) ∧
      ∃ (f : ℝ → ℝ) (f' : ℝ),
        (∀ a, (nary .div (binary .pow (var "x") (num 3)) [func .ln (var "y")]).eval
          [("x", a), ("y", 2)] = .ok (f a)) ∧
        ((nary .div (binary .pow (var "x") (num 3)) [func .ln (var "y")]).derivative "x").eval
          [("x", -1), ("y", 2)] = .ok f' ∧ HasDerivAt f f' (-1) := by
  have hx : Bindings.assign [("x", (-1 : ℝ)), ("y", 2)] "x" = -1 := rfl
  have hy : Bindings.assign [("x", (-1 : ℝ)), ("y", 2)] "y" = 2 := rfl
  have hbound : (nary .div (binary .pow (var "x") (num 3)) [func .ln (var "y")] : Expr ℝ).NamesIn
      (fun z => z = "x" ∨ (([("y", 2)] : Bindings ℝ).lookup z).isSome) := by
    simp [namesIn_binary]
  have hregular : (nary .div (binary .pow (var "x") (num 3)) [func .ln (var "y")]).Regular
      (Bindings.assign [("x", -1), ("y", 2)]) := by
    -- the divisor `ln y`, the argument `y` and the power `x ^ 3`
    refine ⟨fun a ds hmem d hd => ?_, fun a hmem => ?_, fun b es hmem => ?_⟩
    · simp [parts, binary] at hmem
      obtain ⟨rfl, rfl⟩ := hmem
      obtain rfl := List.mem_singleton.1 hd
      rw [value_func, value_var, hy, Func.apply_ln]
      exact (Real.log_pos (by norm_num)).ne'
    · simp [parts, binary] at hmem
      subst hmem
      rw [value_var, hy]
      norm_num
    · simp [parts, binary] at hmem
      obtain ⟨rfl, rfl⟩ := hmem
      refine ⟨Or.inr ⟨?_, ?_, 3, by norm_num, ?_⟩, trivial⟩
      · simp [hasVariable, leafNames]
      · simp [hasVariable, leafNames]
      · rw [value_num]; norm_num
  exact ⟨hbound, hregular, hasDerivAt_eval hbound hregular⟩

end Fluxion.Expr

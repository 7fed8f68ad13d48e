import Fluxion.Proofs.Expr.Differentiation
import Fluxion.Proofs.Simplify.Powers

/-!
# Expressions whose derivatives simplify

Simplification keeps the value of an expression that is ready for it (`Expr.Ready`). `Expr.Smooth`
is the condition under which the derivative of an expression is ready, too
(`Expr.Smooth.derivative`): its powers are those of the expression, once more with exponents lowered
by one, and squares of divisors. What simplification leaves of a ready expression is smooth again
(`Expr.smooth_of_settled`), so that differentiating and simplifying can go on.

The sign of the base of a power is free where the exponent is a whole number. Simplification then
neither loses a sign when it multiplies exponents, nor is a logarithm taken of the base.
-/

namespace Fluxion.Expr

open Simplify

variable {p : Point}

/-! ## Parts of expressions -/

/-- What operands have whenever the operator has it, all parts have. -/
theorem forall_parts {Q : Expr ℝ → Prop}
    (hnary : ∀ op e es, Q (nary op e es) → ∀ d ∈ e :: es, Q d)
    (hfunc : ∀ f e, Q (func f e) → Q e) {e : Expr ℝ} (h : Q e) : ∀ q ∈ e.parts, Q q := by
  induction e using operands_induction with
  | num a =>
    rw [parts]
    exact List.forall_mem_singleton.2 h
  | var x =>
    rw [parts]
    exact List.forall_mem_singleton.2 h
  | nary op e es ihe ihes =>
    obtain ⟨he, hes⟩ := List.forall_mem_cons.1 (hnary op e es h)
    intro q hq
    rw [parts, List.mem_cons, List.mem_append, ← List.flatMap_def, List.mem_flatMap] at hq
    rcases hq with rfl | hq | ⟨d, hd, hq⟩
    · exact h
    · exact ihe he q hq
    · exact ihes d hd (hes d hd) q hq
  | func f e ih =>
    rw [parts]
    exact List.forall_mem_cons.2 ⟨h, ih (hfunc f e h)⟩

/-- Of an expression that is ready the operands are, and the operator admits them. -/
theorem Ready.nary_inv {op : NaryOp} {e : Expr ℝ} {es : List (Expr ℝ)}
    (h : (Expr.nary op e es).Ready p) :
    (∀ d ∈ e :: es, d.Ready p) ∧ ReadyOperands p op e es := by
  cases h with
  | nary hes hoperands => exact ⟨hes, hoperands⟩

theorem Ready.func_inv {f : Func} {e : Expr ℝ} (h : (Expr.func f e).Ready p) :
    e.Ready p ∧ (p.logs → f = .ln → 0 < e.value p.ρ) := by
  cases h with
  | func he hlog => exact ⟨he, hlog⟩

theorem Ready.of_mem_parts {e : Expr ℝ} (h : e.Ready p) : ∀ q ∈ e.parts, q.Ready p :=
  forall_parts (fun _ _ _ h => h.nary_inv.1) (fun _ _ h => h.func_inv.1) h

theorem Ready.namesIn {e : Expr ℝ} (h : e.Ready p) : e.NamesIn p.known := by
  induction h with
  | num a => exact namesIn_num a
  | var hx => exact namesIn_var.2 hx
  | nary _ _ ih => exact namesIn_nary.2 (List.forall_mem_cons.1 ih)
  | func _ _ ih => exact namesIn_func.2 ih

/-! ## Powers -/

/-- A power with one exponent whose derivative is ready if its operands and their derivatives
are. -/
inductive SmoothPower (p : Point) (b e : Expr ℝ) : Prop
  | ofBase : PositiveBase p b → SmoothPower p b e
  | ofExponent (k : ℕ) :
      0 < b.value p.ρ → e.normalForm = .num (k + 1) → SmoothPower p b e
  | ofVariable (k : ℕ) :
      b.hasVariable = true → (∀ a, b.normalForm ≠ .num a) → e = .num ((k : ℝ) + 1) →
        SmoothPower p b e

/-- Every power of a chain is such, the chain being nested to the left. -/
def SmoothPowers (p : Point) : Expr ℝ → List (Expr ℝ) → Prop
  | _, [] => True
  | b, e :: es => SmoothPower p b e ∧ SmoothPowers p (binary .pow b e) es

/-- Expressions that can be differentiated at a point and have derivatives that are ready. -/
structure Smooth (p : Point) (e : Expr ℝ) : Prop where
  ready : e.Ready p
  powers : ∀ b es, nary .pow b es ∈ e.parts → SmoothPowers p b es

theorem value_power_pos {b : Expr ℝ} (h : 0 < b.value p.ρ) (e : Expr ℝ) :
    0 < (binary .pow b e).value p.ρ := by
  rw [value_binary]
  exact Real.rpow_pos_of_pos h _

/-- On a positive base any exponents do. -/
theorem PositiveBase.smoothPowers {b : Expr ℝ} (h : PositiveBase p b) (hready : b.Ready p)
    {es : List (Expr ℝ)} (hes : ∀ e ∈ es, e.Ready p) : SmoothPowers p b es := by
  induction es generalizing b with
  | nil => trivial
  | cons e es ih =>
    obtain ⟨he, hes⟩ := List.forall_mem_cons.1 hes
    have hpower : (binary .pow b e).Ready p :=
      .nary (List.forall_mem_cons.2 ⟨hready, List.forall_mem_singleton.2 he⟩) (Or.inl h)
    exact ⟨.ofBase h, ih (h.power hready e) hpower hes⟩

/-- On a positive value whole exponents do, whatever the base looks like. -/
theorem smoothPowers_of_exponents {b : Expr ℝ} (h : 0 < b.value p.ρ) {es : List (Expr ℝ)}
    (hes : ∀ e ∈ es, ∃ k : ℕ, e.normalForm = .num (k + 1)) : SmoothPowers p b es := by
  induction es generalizing b with
  | nil => trivial
  | cons e es ih =>
    obtain ⟨⟨k, he⟩, hes⟩ := List.forall_mem_cons.1 hes
    exact ⟨.ofExponent k h he, ih (value_power_pos h e) hes⟩

/-- A whole exponent stays whole when it is lowered by one. -/
theorem wholePower_lowered {b e : Expr ℝ} {k : ℕ} (hsign : ¬p.positive)
    (hbase : b.value p.ρ ≠ 0 ∨ ∀ a, b.normalForm ≠ .num a) (he : e.normalForm = .num (k + 1)) :
    WholePower p b [e] ∧ WholePower p b [binary .sub e one] := by
  have hlowered : (binary .sub e one).normalForm = .num k := by
    rw [normalForm_sub_one he, Scalar.sub_real, Scalar.ofNat_real, Nat.cast_one,
      add_sub_cancel_right]
  refine ⟨⟨hbase, ?_, hsign⟩, ⟨hbase, ?_, hsign⟩⟩
  · exact List.forall_mem_singleton.2 ⟨k + 1, by rw [he, Nat.cast_succ]⟩
  · exact List.forall_mem_singleton.2 ⟨k, hlowered⟩

/-- The power itself, and that with the exponent lowered by one. -/
theorem SmoothPower.operands {b e : Expr ℝ} (h : SmoothPower p b e) (hsign : ¬p.positive) :
    ReadyOperands p .pow b [e] ∧ ReadyOperands p .pow b [binary .sub e one] := by
  cases h with
  | ofBase hb => exact ⟨Or.inl hb, Or.inl hb⟩
  | ofExponent k hb he =>
    obtain ⟨hpower, hlowered⟩ := wholePower_lowered hsign (Or.inl hb.ne') he
    exact ⟨Or.inr hpower, Or.inr hlowered⟩
  | ofVariable k _ hb he =>
    obtain ⟨hpower, hlowered⟩ :=
      wholePower_lowered hsign (Or.inr hb) (e := e) (by rw [he, normalForm_num])
    exact ⟨Or.inr hpower, Or.inr hlowered⟩

/-- The rules apply to the power. -/
theorem SmoothPower.regular {b e : Expr ℝ} (h : SmoothPower p b e) : PowerRegular p.ρ b e := by
  cases h with
  | ofBase hb => exact Or.inl hb.pos
  | ofExponent k hb _ => exact Or.inl hb
  | ofVariable k hb _ he =>
    subst he
    refine Or.inr ⟨hb, ?_, k + 1, Nat.le_add_left 1 k, ?_⟩
    · rw [hasVariable, leafNames]; rfl
    · rw [value_num, Nat.cast_succ]

/-- Such powers can be differentiated. -/
theorem SmoothPowers.regular {b : Expr ℝ} {es : List (Expr ℝ)} (h : SmoothPowers p b es) :
    PowersRegular p.ρ b es := by
  induction es generalizing b with
  | nil => trivial
  | cons e es ih => exact ⟨h.1.regular, ih h.2⟩

/-- The rules apply to the whole expression. -/
theorem Smooth.regular {e : Expr ℝ} (h : e.Smooth p) (hlogs : p.logs) : e.Regular p.ρ where
  divisors _ _ hmem := (h.ready.of_mem_parts _ hmem).nary_inv.2
  arguments _ hmem := (h.ready.of_mem_parts _ hmem).func_inv.2 hlogs rfl
  powers b es hmem := (h.powers b es hmem).regular

/-! ## The derivative is ready -/

section

variable {a a' b b' e e' : Expr ℝ} {es : List (Expr ℝ)}

theorem ready_binary {op : NaryOp} (ha : a.Ready p) (hb : b.Ready p)
    (h : ReadyOperands p op a [b]) : (binary op a b).Ready p :=
  .nary (List.forall_mem_cons.2 ⟨ha, List.forall_mem_singleton.2 hb⟩) h

theorem ready_sum (h : ∀ e ∈ es, e.Ready p) : (sum es).Ready p := by
  cases es with
  | nil => exact .num _
  | cons e es => exact .nary h trivial

theorem ready_product (h : ∀ e ∈ es, e.Ready p) : (product es).Ready p := by
  cases es with
  | nil => exact .num _
  | cons e es => exact .nary h trivial

/-- A quotient is ready if its divisors are not zero. -/
theorem ready_quotient (he : e.Ready p) (hes : ∀ d ∈ es, d.Ready p)
    (hne : ∀ d ∈ es, d.value p.ρ ≠ 0) : (quotient e es).Ready p := by
  cases es with
  | nil => exact he
  | cons d es => exact .nary (List.forall_mem_cons.2 ⟨he, hes⟩) hne

/-- The quotient rule puts in a square of the divisor, which is not zero. -/
theorem ready_quotientRule (hsign : ¬p.positive) (ha : a.Ready p) (ha' : a'.Ready p)
    (hb : b.Ready p) (hb' : b'.Ready p) (hne : b.value p.ρ ≠ 0) :
    (quotientRule a a' b b').Ready p := by
  have hsquare : WholePower p b [num (Scalar.ofNat 2)] := by
    refine ⟨Or.inl hne, List.forall_mem_singleton.2 ⟨2, ?_⟩, hsign⟩
    rw [normalForm_num, Scalar.ofNat_real]
  have hdivisor : (binary .pow b (num (Scalar.ofNat 2))).value p.ρ ≠ 0 := by
    rw [value_binary, value_num, NaryOp.apply_pow, Scalar.ofNat_real, Real.rpow_natCast]
    exact pow_ne_zero 2 hne
  refine ready_binary ?_ (ready_binary hb (.num _) (Or.inr hsquare))
    (List.forall_mem_singleton.2 hdivisor)
  exact ready_binary (ready_binary ha' hb trivial) (ready_binary ha hb' trivial) trivial

/-- The derivative of a quotient is ready, by induction on the divisors. -/
theorem ready_quotientDerivative (hsign : ¬p.positive) {ps : List (Expr ℝ × Expr ℝ)}
    (he : e.Ready p) (hps : ∀ q ∈ ps, q.1.Ready p ∧ q.2.Ready p)
    (hne : ∀ q ∈ ps, q.1.value p.ρ ≠ 0) :
    ∀ {ds : List (Expr ℝ)} {numerator' : Expr ℝ}, (∀ d ∈ ds, d.Ready p) →
      (∀ d ∈ ds, d.value p.ρ ≠ 0) → numerator'.Ready p →
        (quotientDerivative e ds numerator' ps).Ready p := by
  induction ps with
  | nil => intro ds numerator' _ _ h; exact h
  | cons q ps ih =>
    obtain ⟨⟨hd, hd'⟩, hafter⟩ := List.forall_mem_cons.1 hps
    obtain ⟨hdne, hafterne⟩ := List.forall_mem_cons.1 hne
    intro ds numerator' hds hdsne hnumerator
    have hrule := ready_quotientRule hsign (ready_quotient he hds hdsne) hnumerator hd hd' hdne
    -- the divisor that is taken in joins those before
    exact ih hafter hafterne (List.forall_mem_append.2 ⟨hds, List.forall_mem_singleton.2 hd⟩)
      (List.forall_mem_append.2 ⟨hdsne, List.forall_mem_singleton.2 hdne⟩) hrule

/-- The power rule lowers the exponent by one, or takes a logarithm of a positive base. -/
theorem ready_powerRule (hsign : ¬p.positive) (hb : b.Ready p) (hb' : b'.Ready p)
    (he : e.Ready p) (he' : e'.Ready p) (h : SmoothPower p b e) :
    (powerRule b b' e e').Ready p := by
  obtain ⟨hpower, hlowered⟩ := h.operands hsign
  have hpower : (binary .pow b e).Ready p := ready_binary hb he hpower
  have hlowered : (binary .pow b (binary .sub e one)).Ready p :=
    ready_binary hb (ready_binary he (.num _) trivial) hlowered
  -- no logarithm is taken where the base may be negative
  have hlog : 0 < b.value p.ρ → (func .ln b).Ready p := fun hpos => .func hb fun _ _ => hpos
  have hsides : 0 < b.value p.ρ ∨ b.hasVariable = true ∧ e.hasVariable = false :=
    h.regular.imp_right fun hregular => ⟨hregular.1, hregular.2.1⟩
  unfold powerRule
  split
  · next hvariable =>
    have hpos := hsides.resolve_right fun hsides => by simp [hsides.1] at hvariable
    exact ready_product (by simp [hlog hpos, hpower, he'])
  split
  · exact ready_product (by simp [he, hlowered, hb'])
  · next hvariable =>
    have hpos := hsides.resolve_right fun hsides => by simp [hsides.2] at hvariable
    refine ready_sum (List.forall_mem_cons.2 ⟨?_, List.forall_mem_singleton.2 ?_⟩)
    · exact ready_product (by simp [hlog hpos, hpower, he'])
    · exact ready_product (by simp [he, hlowered, hb'])

/-- The derivative of a chain of powers is ready, by induction on the exponents. -/
theorem ready_powerDerivative (hsign : ¬p.positive) {ps : List (Expr ℝ × Expr ℝ)}
    (hps : ∀ q ∈ ps, q.1.Ready p ∧ q.2.Ready p) :
    ∀ {b b' : Expr ℝ}, b.Ready p → b'.Ready p → SmoothPowers p b (ps.map Prod.fst) →
      (powerDerivative b b' ps).Ready p := by
  induction ps with
  | nil => intro b b' _ h _; exact h
  | cons q ps ih =>
    obtain ⟨⟨he, he'⟩, hafter⟩ := List.forall_mem_cons.1 hps
    rintro b b' hb hb' ⟨hpower, hpowers⟩
    exact ih hafter (ready_binary hb he (hpower.operands hsign).1)
      (ready_powerRule hsign hb hb' he he' hpower) hpowers

/-- The derivative of a logarithm has its operand for a divisor, and that is positive. -/
theorem ready_funcDerivative {f : Func} (he : e.Ready p) (he' : e'.Ready p)
    (hpos : f = .ln → 0 < e.value p.ρ) : (funcDerivative f e e').Ready p := by
  cases f with
  | ln =>
    have hquotient : (binary .div one e).Ready p :=
      ready_binary (.num _) he (List.forall_mem_singleton.2 (hpos rfl).ne')
    exact ready_product (List.forall_mem_cons.2 ⟨hquotient, List.forall_mem_singleton.2 he'⟩)
  | sin =>
    have hcos : (func .cos e).Ready p := .func he fun _ h => by cases h
    exact ready_product (List.forall_mem_cons.2 ⟨hcos, List.forall_mem_singleton.2 he'⟩)
  | cos =>
    have hsin : (func .sin e).Ready p := .func he fun _ h => by cases h
    exact ready_product (List.forall_mem_cons.2 ⟨.num _, List.forall_mem_cons.2
      ⟨hsin, List.forall_mem_singleton.2 he'⟩⟩)

end

theorem Smooth.mono {d e : Expr ℝ} (h : e.Smooth p) (hd : d.Ready p)
    (hparts : ∀ q ∈ d.parts, q ∈ e.parts) : d.Smooth p where
  ready := hd
  powers b es hmem := h.powers b es (hparts _ hmem)

/-- The derivative of a smooth expression is ready for simplification. -/
theorem Smooth.derivative {e : Expr ℝ} (h : e.Smooth p) (hsign : ¬p.positive) (hlogs : p.logs)
    (v : String) : (e.derivative v).Ready p := by
  induction e using operands_induction with
  | num a => rw [Expr.derivative]; exact .num _
  | var x => rw [Expr.derivative]; exact .num _
  | nary op e es ihe ihes =>
    obtain ⟨hready, hoperands⟩ := h.ready.nary_inv
    obtain ⟨he, hes⟩ := List.forall_mem_cons.1 hready
    have he' := ihe (h.mono he fun q hq => mem_parts_first op es hq)
    have hps : ∀ q ∈ es.map (fun d => (d, d.derivative v)), q.1.Ready p ∧ q.2.Ready p := by
      refine List.forall_mem_map.2 fun d hd => ⟨hes d hd, ?_⟩
      exact ihes d hd (h.mono (hes d hd) fun q hq => mem_parts_other op e hd hq)
    have hall : ∀ q ∈ (e, e.derivative v) :: es.map (fun d => (d, d.derivative v)),
        q.1.Ready p ∧ q.2.Ready p := List.forall_mem_cons.2 ⟨⟨he, he'⟩, hps⟩
    rw [Expr.derivative]
    -- each rule puts the operands and their derivatives together without a divisor that could be
    -- zero
    cases op with
    | add | sub =>
      refine .nary (List.forall_mem_cons.2 ⟨he', ?_⟩) trivial
      exact List.forall_mem_map.2 fun q hq => (hps q hq).2
    | mul => exact ready_sum (forall_productTerms ready_product hall (List.forall_mem_nil _))
    | div =>
      refine ready_quotientDerivative hsign he hps ?_ (List.forall_mem_nil _)
        (List.forall_mem_nil _) he'
      exact List.forall_mem_map.2 hoperands
    | pow =>
      have hfst : (es.map fun d => (d, d.derivative v)).map Prod.fst = es := by
        rw [List.map_map]
        exact List.map_id es
      refine ready_powerDerivative hsign hps he he' ?_
      rw [hfst]
      exact h.powers e es (mem_parts_self _)
  | func f e ih =>
    obtain ⟨he, hlog⟩ := h.ready.func_inv
    rw [Expr.derivative]
    exact ready_funcDerivative he (ih (h.mono he fun q hq => mem_parts_argument f hq)) (hlog hlogs)

/-! ## Smooth expressions -/

/-- An expression is smooth if its parts are as they should be. -/
theorem smooth_of_parts {e : Expr ℝ} (hnames : e.NamesIn p.known)
    (hdivisors : ∀ a ds, nary .div a ds ∈ e.parts → ∀ d ∈ ds, d.value p.ρ ≠ 0)
    (hlogs : p.logs → ∀ a, func .ln a ∈ e.parts → 0 < a.value p.ρ)
    (hpowers : ∀ b es, nary .pow b es ∈ e.parts → (∀ d ∈ b :: es, d.Ready p) →
      ReadyOperands p .pow b es ∧ SmoothPowers p b es) : e.Smooth p := by
  have hready : e.Ready p :=
    ready_of_parts hnames hdivisors hlogs fun b es hmem h => (hpowers b es hmem h).1
  exact ⟨hready, fun b es hmem => (hpowers b es hmem (hready.of_mem_parts _ hmem).nary_inv.1).2⟩

/-- The exponents of a settled power that are whole are one, and that is not zero. -/
theorem exponent_of_settled {t : Tree ℝ} {us : List (Tree ℝ)}
    (h : (Tree.node (.nary .pow) (t :: us)).Settled) (hwhole : ∀ u ∈ us, ∃ n : ℕ, u = .num n) :
    ∃ k : ℕ, us = [.num ((k : ℝ) + 1)] := by
  have hnormal := normalOperands_of_settled h
  have htwo := hnormal.two
  have hone : constantCount us ≤ 1 := hnormal.folded_exponents rfl
  have hall : constantCount us = us.length := by
    refine List.countP_eq_length.2 fun u hu => ?_
    obtain ⟨n, rfl⟩ := hwhole u hu
    rfl
  obtain ⟨u, rfl⟩ : ∃ u, us = [u] := List.length_eq_one_iff.1 (by simp at htwo; omega)
  obtain ⟨n, rfl⟩ := hwhole u (List.mem_singleton_self u)
  have hzero : Scalar.near (n : ℝ) (Scalar.ofNat 0) = false :=
    hnormal.exponent rfl _ (List.mem_singleton_self _)
  cases n with
  | zero => exact absurd ((Scalar.near_natCast_iff 0 0).2 rfl) (Bool.eq_false_iff.1 hzero)
  | succ k => exact ⟨k, by rw [Nat.cast_succ]⟩

/-- An expression with nothing left to simplify and without variables is a constant. -/
theorem hasVariable_of_settled {op : NaryOp} {e : Expr ℝ} {es : List (Expr ℝ)}
    (h : (nary op e es).toTree.Settled) : (nary op e es).hasVariable = true := by
  by_contra hnone
  have htree : (nary op e es).toTree.hasVariable = false := by
    rw [Tree.hasVariable, leafNames_toTree]
    exact Bool.eq_false_iff.2 hnone
  obtain ⟨a, ha⟩ := (isNormal_of_settled h).constant _ (toExpr_toTree _) htree
  rw [toTree] at ha
  cases ha

/-- A settled power that is regular is smooth. -/
theorem smoothPowers_of_settled (hsign : ¬p.positive) {b : Expr ℝ} {es : List (Expr ℝ)}
    (hregular : (nary .pow b es).toTree.Regular p)
    (hsettled : (nary .pow b es).toTree.Each Tree.Settled) (hready : ∀ d ∈ b :: es, d.Ready p) :
    ReadyOperands p .pow b es ∧ SmoothPowers p b es := by
  obtain ⟨hb, hes⟩ := List.forall_mem_cons.1 hready
  have hvariable := hasVariable_of_settled hsettled.self
  rw [toTree] at hregular hsettled
  obtain ⟨hoperands, hself⟩ := Tree.each_node.1 hsettled
  have hnormal : b.normalForm = b.toTree := (hoperands _ (List.mem_cons_self ..)).simplify_eq
  have hground : b.toTree.ground = b.toTree := ground_of_settled hself
  obtain ⟨-, -, hadmitted⟩ := Tree.Regular.nary_iff.1 hregular
  -- either the base stays positive, or it is a variable power with a whole exponent
  rcases hadmitted with hpos | ⟨hnum, -, hwhole⟩
  · have hbase : PositiveBase p b := by
      rw [hground, value_toTree] at hpos
      refine ⟨hpos, fun _ c us hpower => ?_⟩
      rw [hnormal] at hpower
      have hflat := (normalOperands_of_settled hself).flat_base rfl _ rfl
      rw [hpower] at hflat
      cases hflat
    exact ⟨Or.inl hbase, hbase.smoothPowers hb hes⟩
  · obtain ⟨k, hk⟩ := exponent_of_settled hself hwhole
    obtain ⟨e, rfl, he⟩ := List.map_eq_singleton_iff.1 hk
    obtain rfl := eq_num_of_toTree he
    have hbase : b.hasVariable = true := by
      simpa [hasVariable, leafNames] using hvariable
    -- the base has a variable still, or the power would have been evaluated
    have hconstant : ∀ a, b.normalForm ≠ .num a := by
      rintro a ha
      rw [hnormal] at ha
      rw [eq_num_of_toTree ha, hasVariable, leafNames] at hbase
      cases hbase
    have hpower : SmoothPower p b (.num ((k : ℝ) + 1)) := .ofVariable k hbase hconstant rfl
    exact ⟨(hpower.operands hsign).1, hpower, trivial⟩

/-- A regular tree with nothing left to simplify is that of a smooth expression. -/
theorem smooth_of_settled (hsign : ¬p.positive) {e : Expr ℝ} (hregular : e.toTree.Regular p)
    (hsettled : e.toTree.Each Tree.Settled) : e.Smooth p := by
  -- both properties are passed on to all parts, so the conditions can be read off part by part
  have hparts : ∀ q ∈ e.parts, q.toTree.Regular p ∧ q.toTree.Each Tree.Settled := by
    refine forall_parts (fun op e es h => ?_) (fun f e h => ?_) ⟨hregular, hsettled⟩
    · rw [toTree, ← List.map_cons] at h
      intro d hd
      have hmem : d.toTree ∈ (e :: es).map toTree := List.mem_map_of_mem hd
      exact ⟨(Tree.Regular.nary_iff.1 h.1).2.1 _ hmem, (Tree.each_node.1 h.2).1 _ hmem⟩
    · rw [toTree] at h
      exact ⟨(Tree.Regular.func_iff.1 h.1).1, (Tree.each_node.1 h.2).1 _ (List.mem_cons_self ..)⟩
  obtain ⟨e', htree, hnames⟩ := exists_of_regular hregular
  obtain rfl := toTree_injective htree
  refine smooth_of_parts hnames ?_ ?_ fun b es hmem hready => ?_
  · intro a ds hmem d hd
    have hquotient := (hparts _ hmem).1
    rw [toTree] at hquotient
    rw [← value_toTree]
    exact (Tree.Regular.nary_iff.1 hquotient).2.2 _ (List.mem_map_of_mem hd)
  · intro hlogs a hmem
    have hlog := (hparts _ hmem).1
    rw [toTree] at hlog
    rw [← value_toTree]
    exact (Tree.Regular.func_iff.1 hlog).2 hlogs rfl
  · exact smoothPowers_of_settled hsign (hparts _ hmem).1 (hparts _ hmem).2 hready

/-- What simplification leaves of a ready expression is smooth, and has the same value. -/
theorem Ready.smooth_normalForm (hsign : ¬p.positive) {d d' : Expr ℝ} (h : d.Ready p)
    (hexact : d.TestsExact) (htree : d'.toTree = d.normalForm) :
    d'.Smooth p ∧ d'.value p.ρ = d.value p.ρ := by
  obtain ⟨hregular, hvalue⟩ := h.simplify hexact
  have hsettled : d.normalForm.Each Tree.Settled := d.toTree.simplify_settled
  rw [← htree] at hregular hvalue hsettled
  exact ⟨smooth_of_settled hsign hregular hsettled, by rw [← hvalue, value_toTree]⟩

end Fluxion.Expr

import Fluxion.Expr.Derivative
import Fluxion.Proofs.Expr.Values

/-!
# Variables of derivatives

Each rule of differentiation puts together what it is given: the operands, their derivatives and
constants. So a derivative has no variable that the expression does not have.
-/

namespace Fluxion.Expr

variable {α : Type} {P : String → Prop}

theorem namesIn_binary {op : NaryOp} {a b : Expr α} :
    (binary op a b).NamesIn P ↔ a.NamesIn P ∧ b.NamesIn P := by
  simp [binary]

variable [Scalar α]

theorem namesIn_sum {es : List (Expr α)} (h : ∀ e ∈ es, e.NamesIn P) : (sum es).NamesIn P := by
  cases es with
  | nil => exact namesIn_num _
  | cons e es => exact namesIn_nary.2 (List.forall_mem_cons.1 h)

theorem namesIn_product {es : List (Expr α)} (h : ∀ e ∈ es, e.NamesIn P) :
    (product es).NamesIn P := by
  cases es with
  | nil => exact namesIn_num _
  | cons e es => exact namesIn_nary.2 (List.forall_mem_cons.1 h)

omit [Scalar α] in
theorem namesIn_quotient {e : Expr α} {es : List (Expr α)} (he : e.NamesIn P)
    (hes : ∀ d ∈ es, d.NamesIn P) : (quotient e es).NamesIn P := by
  cases es with
  | nil => exact he
  | cons d es => exact namesIn_nary.2 ⟨he, hes⟩

/-- What products inherit from their factors, the terms of the product rule have. -/
theorem forall_productTerms {Q : Expr α → Prop}
    (hproduct : ∀ {es : List (Expr α)}, (∀ e ∈ es, Q e) → Q (product es))
    {ps : List (Expr α × Expr α)} (hps : ∀ p ∈ ps, Q p.1 ∧ Q p.2) :
    ∀ {before : List (Expr α)}, (∀ e ∈ before, Q e) → ∀ t ∈ productTerms before ps, Q t := by
  induction ps with
  | nil => intro before _ t ht; cases ht
  | cons p ps ih =>
    intro before hbefore t ht
    obtain ⟨⟨he, he'⟩, hafter⟩ := List.forall_mem_cons.1 hps
    rw [productTerms, List.mem_cons] at ht
    rcases ht with rfl | ht
    · refine hproduct (List.forall_mem_append.2 ⟨hbefore, ?_⟩)
      refine List.forall_mem_cons.2 ⟨he', fun a ha => ?_⟩
      obtain ⟨q, hq, rfl⟩ := List.mem_map.1 ha
      exact (hafter q hq).1
    · exact ih hafter (List.forall_mem_append.2 ⟨hbefore, List.forall_mem_singleton.2 he⟩) t ht

/-- The quotient rule is applied divisor by divisor, and each time only puts together what it is
given. -/
theorem namesIn_quotientDerivative {first : Expr α} {ps : List (Expr α × Expr α)}
    (hfirst : first.NamesIn P) (hps : ∀ p ∈ ps, p.1.NamesIn P ∧ p.2.NamesIn P) :
    ∀ {ds : List (Expr α)} {numerator' : Expr α}, (∀ d ∈ ds, d.NamesIn P) →
      numerator'.NamesIn P → (quotientDerivative first ds numerator' ps).NamesIn P := by
  induction ps with
  | nil => intro ds numerator' _ h; exact h
  | cons p ps ih =>
    intro ds numerator' hds hnumerator
    obtain ⟨⟨he, he'⟩, hafter⟩ := List.forall_mem_cons.1 hps
    refine ih hafter (List.forall_mem_append.2 ⟨hds, List.forall_mem_singleton.2 he⟩) ?_
    simp only [quotientRule, namesIn_binary]
    exact ⟨⟨⟨hnumerator, he⟩, namesIn_quotient hfirst hds, he'⟩, he, namesIn_num _⟩

/-- The power rule puts together base, exponent and their derivatives. -/
theorem namesIn_powerRule {b b' e e' : Expr α} (hb : b.NamesIn P) (hb' : b'.NamesIn P)
    (he : e.NamesIn P) (he' : e'.NamesIn P) : (powerRule b b' e e').NamesIn P := by
  have hpower : (binary .pow b e).NamesIn P := namesIn_binary.2 ⟨hb, he⟩
  have hlowered : (binary .pow b (binary .sub e one)).NamesIn P :=
    namesIn_binary.2 ⟨hb, namesIn_binary.2 ⟨he, namesIn_num _⟩⟩
  unfold powerRule
  split
  · exact namesIn_product (by simp [hb, hpower, he'])
  split
  · exact namesIn_product (by simp [he, hlowered, hb'])
  · refine namesIn_sum ?_
    rintro t (_ | ⟨_, _ | ⟨_, ht⟩⟩)
    · exact namesIn_product (by simp [hb, hpower, he'])
    · exact namesIn_product (by simp [he, hlowered, hb'])
    · cases ht

theorem namesIn_powerDerivative {ps : List (Expr α × Expr α)}
    (hps : ∀ p ∈ ps, p.1.NamesIn P ∧ p.2.NamesIn P) :
    ∀ {b b' : Expr α}, b.NamesIn P → b'.NamesIn P → (powerDerivative b b' ps).NamesIn P := by
  induction ps with
  | nil => intro b b' _ h; exact h
  | cons p ps ih =>
    intro b b' hb hb'
    obtain ⟨⟨he, he'⟩, hafter⟩ := List.forall_mem_cons.1 hps
    exact ih hafter (namesIn_binary.2 ⟨hb, he⟩) (namesIn_powerRule hb hb' he he')

/-- The rule of a function puts together its operand and the derivative of that. -/
theorem namesIn_funcDerivative {f : Func} {e e' : Expr α} (he : e.NamesIn P) (he' : e'.NamesIn P) :
    (funcDerivative f e e').NamesIn P := by
  cases f with
  | ln =>
    exact namesIn_product (List.forall_mem_cons.2
      ⟨namesIn_binary.2 ⟨namesIn_num _, he⟩, List.forall_mem_singleton.2 he'⟩)
  | sin =>
    exact namesIn_product (List.forall_mem_cons.2
      ⟨namesIn_func.2 he, List.forall_mem_singleton.2 he'⟩)
  | cos =>
    exact namesIn_product (List.forall_mem_cons.2 ⟨namesIn_num _, List.forall_mem_cons.2
      ⟨namesIn_func.2 he, List.forall_mem_singleton.2 he'⟩⟩)

/-- The derivative has no variable that the expression does not have. -/
theorem namesIn_derivative {e : Expr α} (v : String) (h : e.NamesIn P) :
    (e.derivative v).NamesIn P := by
  induction e using operands_induction with
  | num a => rw [derivative]; exact namesIn_num _
  | var x => rw [derivative]; exact namesIn_num _
  | nary op e es ihe ihes =>
    obtain ⟨he, hes⟩ := namesIn_nary.1 h
    have hps : ∀ p ∈ es.map (fun a => (a, a.derivative v)), p.1.NamesIn P ∧ p.2.NamesIn P := by
      intro p hp
      obtain ⟨a, ha, rfl⟩ := List.mem_map.1 hp
      exact ⟨hes a ha, ihes a ha (hes a ha)⟩
    have hsnd : ∀ a ∈ (es.map fun a => (a, a.derivative v)).map Prod.snd, a.NamesIn P := by
      intro a ha
      obtain ⟨p, hp, rfl⟩ := List.mem_map.1 ha
      exact (hps p hp).2
    rw [derivative]
    cases op with
    | add => exact namesIn_nary.2 ⟨ihe he, hsnd⟩
    | sub => exact namesIn_nary.2 ⟨ihe he, hsnd⟩
    | mul =>
      have hall : ∀ p ∈ (e, e.derivative v) :: es.map (fun a => (a, a.derivative v)),
          p.1.NamesIn P ∧ p.2.NamesIn P := List.forall_mem_cons.2 ⟨⟨he, ihe he⟩, hps⟩
      exact namesIn_sum (forall_productTerms namesIn_product hall (List.forall_mem_nil _))
    | div => exact namesIn_quotientDerivative he hps (List.forall_mem_nil _) (ihe he)
    | pow => exact namesIn_powerDerivative hps he (ihe he)
  | func f e ih =>
    have he := namesIn_func.1 h
    rw [derivative]
    exact namesIn_funcDerivative he (ih he)

end Fluxion.Expr

import Fluxion.Proofs.Simplify.Regular
import Fluxion.Proofs.Simplify.Subtrees

/-!
# Rules that keep values

A rule `Keeps` values at a point if, from a regular tree and as long as its tests are exact, what it
yields is regular and has the same value. Here this is shown of every rule but those for like terms.
-/

namespace Fluxion

/-- From a regular tree, with exact tests, the rule yields a regular tree of the same value. -/
def Rule.Keeps (p : Point) (r : Rule ℝ) (tests : Tests ℝ) : Prop :=
  ∀ {t : Tree ℝ} {w : Rewrite ℝ}, t.Regular p → (∀ c ∈ tests t, c.Exact) → r t = some w →
    w.result.Regular p ∧ w.result.value p.ρ = t.value p.ρ

/-- A rule with a step keeps values if the function behind it does. -/
theorem Rule.Keeps.named {p : Point} {step : Step} {f : Tree ℝ → Option (Tree ℝ)} {tests : Tests ℝ}
    (h : ∀ {t t' : Tree ℝ}, t.Regular p → (∀ c ∈ tests t, c.Exact) → f t = some t' →
      t'.Regular p ∧ t'.value p.ρ = t.value p.ρ) :
    Rule.Keeps p (Rule.named step f) tests := by
  intro t w hreg hexact hw
  obtain ⟨t', ht', rfl⟩ := Option.map_eq_some_iff.1 hw
  exact h hreg hexact ht'

namespace Simplify

open Fluxion.Tree

variable {p : Point}

/-- Being regular is a property that operands never lose. -/
theorem hereditary_regular : Hereditary (Tree.Regular p) where
  num a := .num a
  operand h := (Regular.nary_iff.1 h).2.1
  term hx _ _ := .nary (List.cons_ne_nil _ _)
    (List.forall_mem_cons.2 ⟨hx, List.forall_mem_singleton.2 (.num _)⟩) trivial
  power {x} n hx := by
    have hne : (var x : Tree ℝ) ≠ .num 0 := fun h => by cases h
    have hpos : p.positive → 0 < (var x).value p.ρ := by
      intro hp
      cases hx with
      | var hx =>
        rw [value_var]
        exact p.pos hp x hx
    exact .nary (List.cons_ne_nil _ _)
      (List.forall_mem_cons.2 ⟨hx, List.forall_mem_singleton.2 (.num _)⟩)
      (Or.inr ⟨hne, hpos, List.forall_mem_singleton.2 ⟨n + 2, rfl⟩⟩)

/-! ## Exact tests -/

/-- With an exact test, a constant near a number is that number. -/
theorem eq_num_of_isNear {t : Tree ℝ} {a : ℝ} (hexact : ∀ c ∈ testsAgainst a t, c.Exact)
    (h : t.isNear a = true) : t = .num a := by
  cases t with
  | num b =>
    have heq : b = a := hexact ⟨b, a⟩ (List.mem_singleton_self _) h
    rw [heq]
  | var x => cases h
  | node op ts => cases h

/-- With exact tests, one of the operands is zero if one is near zero. -/
theorem exists_zero_of_any {ts : List (Tree ℝ)} (hexact : ∀ c ∈ anyZeroTests ts, c.Exact)
    (h : ts.any isZero = true) : .num 0 ∈ ts := by
  induction ts with
  | nil => cases h
  | cons t ts ih =>
    rw [anyZeroTests, List.forall_mem_append] at hexact
    by_cases ht : isZero t = true
    · have : t = .num (Scalar.ofNat 0) := eq_num_of_isNear hexact.1 ht
      rw [this, Scalar.ofNat_real, Nat.cast_zero]
      exact List.mem_cons_self ..
    · rw [if_neg ht] at hexact
      rw [List.any_cons, Bool.or_eq_true] at h
      exact List.mem_cons_of_mem _ (ih hexact.2 (h.resolve_left ht))

/-! ## Neutral and single operands -/

/-- Operands that are near the neutral number are that number, as the tests are exact. -/
theorem gather_withoutNeutral (ρ : String → ℝ) {op : NaryOp} {ts : List (Tree ℝ)}
    (hexact : ∀ c ∈ ts.flatMap (testsAgainst (neutral op)), c.Exact) :
    op.gather ((withoutNeutral op ts).map (value ρ)) = op.gather (ts.map (value ρ)) := by
  induction ts with
  | nil => rfl
  | cons t ts ih =>
    rw [List.flatMap_cons, List.forall_mem_append] at hexact
    have ih := ih hexact.2
    rw [List.map_cons, NaryOp.gather_cons]
    by_cases ht : t.isNear (neutral op) = true
    · have heq := eq_num_of_isNear hexact.1 ht
      rw [withoutNeutral, List.filter_cons_of_neg (by simp [ht]), ← withoutNeutral, ih, heq,
        value_num, NaryOp.gathering_neutral]
    · rw [withoutNeutral, List.filter_cons_of_pos (by simp [ht]), ← withoutNeutral, List.map_cons,
        NaryOp.gather_cons, ih]

theorem keptOperands_of_commutes {op : NaryOp} (h : op.commutes = true) (ts : List (Tree ℝ)) :
    keptOperands op ts = withoutNeutral op ts := by
  unfold keptOperands
  exact if_pos h

theorem keptOperands_cons {op : NaryOp} (h : op.commutes = false) (t : Tree ℝ)
    (ts : List (Tree ℝ)) : keptOperands op (t :: ts) = t :: withoutNeutral op ts := by
  unfold keptOperands
  exact if_neg (by rw [h]; exact Bool.false_ne_true)

/-- The divisors and exponents that are left are some of those that were there. -/
theorem admitted_withoutNeutral {op : NaryOp} {t : Tree ℝ} {ts : List (Tree ℝ)}
    (hadm : Admitted p op (t :: ts)) : Admitted p op (t :: withoutNeutral op ts) := by
  cases op with
  | add | sub | mul => trivial
  | div => exact fun s hs => hadm s (List.mem_of_mem_filter hs)
  | pow =>
    rcases hadm with hground | ⟨hne, hpos, hwhole⟩
    · exact Or.inl hground
    · exact Or.inr ⟨hne, hpos, fun u hu => hwhole u (List.mem_of_mem_filter hu)⟩

/-- Neutral operands may go. Should none be left, the operator still has its neutral number as its
value. -/
theorem removeNeutral_keeps {t t' : Tree ℝ} (hreg : t.Regular p)
    (hexact : ∀ c ∈ removeNeutralTests t, c.Exact) (h : removeNeutral t = some t') :
    t'.value p.ρ = t.value p.ρ ∧ (t'.Regular p ∨ ∃ op, t' = .node (.nary op) []) := by
  obtain ⟨op, ts, rfl, rfl, -⟩ := removeNeutral_eq_some h
  obtain ⟨hne, hts, hadm⟩ := Regular.nary_iff.1 hreg
  have hkept : ∀ t ∈ keptOperands op ts, t.Regular p :=
    fun t ht => hts t ((keptOperands_sublist op ts).subset ht)
  -- where the order matters, the first operand stays whatever it is
  cases hop : op.commutes with
  | true =>
    rw [removeNeutralTests, if_pos hop] at hexact
    have hgather := gather_withoutNeutral p.ρ hexact
    rw [keptOperands_of_commutes hop] at hkept ⊢
    by_cases hnil : withoutNeutral op ts = []
    · refine ⟨?_, Or.inr ⟨op, by rw [hnil]⟩⟩
      rw [value_of_commutes p.ρ hop, value_of_commutes p.ρ hop, hgather]
    · obtain ⟨hreg', hvalue⟩ := Regular.replace_all hop hnil hkept hgather
      exact ⟨hvalue, Or.inl hreg'⟩
  | false =>
    obtain ⟨t, us, rfl⟩ := List.exists_cons_of_ne_nil hne
    rw [removeNeutralTests, hop, if_neg Bool.false_ne_true, List.tail_cons] at hexact
    rw [keptOperands_cons hop] at hkept ⊢
    obtain ⟨hreg', hvalue⟩ := hreg.replace_others (List.forall_mem_cons.1 hkept).2
      (gather_withoutNeutral p.ρ hexact) (admitted_withoutNeutral hadm)
    exact ⟨hvalue, Or.inl hreg'⟩

/-- An operator with one operand has its value, whether or not it is regular. -/
theorem spliceUp_keeps {t t' : Tree ℝ} (hreg : t.Regular p ∨ ∃ op, t = .node (.nary op) [])
    (h : spliceUp t = some t') : t'.Regular p ∧ t'.value p.ρ = t.value p.ρ := by
  obtain ⟨op, ⟨rfl, rfl⟩ | rfl⟩ := spliceUp_eq_some h
  · refine ⟨.num _, ?_⟩
    rw [value_num, value]
    rfl
  · rcases hreg with hreg | ⟨op, heq⟩
    · refine ⟨(Regular.nary_iff.1 hreg).2.1 t' (List.mem_singleton_self _), ?_⟩
      rw [value_nary_cons]
      rfl
    · cases heq

/-- A single operand is taken out at the latest after neutral ones have gone. -/
theorem identities_eq_some {t : Tree ℝ} {w : Rewrite ℝ} (h : identities t = some w) :
    spliceUp t = some w.result ∨
      ∃ t', removeNeutral t = some t' ∧
        (spliceUp t' = none ∧ w.result = t' ∨ spliceUp t' = some w.result) := by
  simp only [identities, Rule.inTurn, Rule.named] at h
  cases hremove : removeNeutral t with
  | none =>
    rw [hremove] at h
    cases hsplice : spliceUp t with
    | none => rw [hsplice] at h; cases h
    | some u => rw [hsplice] at h; cases h; exact Or.inl rfl
  | some t' =>
    rw [hremove] at h
    simp only [Option.map_some] at h
    refine Or.inr ⟨t', rfl, ?_⟩
    cases hsplice : spliceUp t' with
    | none => rw [hsplice] at h; cases h; exact Or.inl ⟨rfl, rfl⟩
    | some u => rw [hsplice] at h; cases h; exact Or.inr rfl

/-- To leave out neutral operands and to splice up keeps values. -/
theorem identities_keeps : Rule.Keeps p identities removeNeutralTests := by
  intro t w hreg hexact hw
  rcases identities_eq_some hw with hsplice | ⟨t', hremove, hw⟩
  · exact spliceUp_keeps (Or.inl hreg) hsplice
  · obtain ⟨hvalue, hreg'⟩ := removeNeutral_keeps hreg hexact hremove
    rcases hw with ⟨hnone, hresult⟩ | hsplice
    · -- an operator without operands would have been spliced up
      rw [hresult]
      refine ⟨hreg'.resolve_right ?_, hvalue⟩
      rintro ⟨op, rfl⟩
      cases hnone
    · obtain ⟨hreg'', hvalue'⟩ := spliceUp_keeps hreg' hsplice
      exact ⟨hreg'', hvalue'.trans hvalue⟩

/-! ## Operands that decide the whole -/

/-- An exponent of zero makes one, for every base. -/
theorem powerZero_keeps {t t' : Tree ℝ} (hreg : t.Regular p)
    (hexact : ∀ c ∈ powerZeroTests t, c.Exact) (h : powerZero t = some t') :
    t'.Regular p ∧ t'.value p.ρ = t.value p.ρ := by
  obtain ⟨base, exponents, rfl, hany, rfl⟩ := powerZero_eq_some h
  have hzero := exists_zero_of_any hexact hany
  refine ⟨.num _, ?_⟩
  have hprod : NaryOp.pow.gather (exponents.map (value p.ρ)) = 0 :=
    List.prod_eq_zero (List.mem_map.2 ⟨_, hzero, value_num _ _⟩)
  rw [hreg.value_nary, hprod]
  simp

/-- A base of zero is not regular with any exponent, so the rule has nothing to keep. -/
theorem zeroPower_keeps {t t' : Tree ℝ} (hreg : t.Regular p)
    (hexact : ∀ c ∈ zeroPowerTests t, c.Exact) (h : zeroPower t = some t') :
    t'.Regular p ∧ t'.value p.ρ = t.value p.ρ := by
  obtain ⟨base, exponents, rfl, hzero, -⟩ := zeroPower_eq_some h
  -- a regular power does not have a base of zero
  obtain rfl := eq_num_of_isNear hexact hzero
  rcases (Regular.nary_iff.1 hreg).2.2 with hground | ⟨hne, -, -⟩
  · simp [ground] at hground
  · simp at hne

/-- A dividend of zero makes zero, since the divisors are not zero. -/
theorem divideZero_keeps {t t' : Tree ℝ} (hreg : t.Regular p)
    (hexact : ∀ c ∈ divideZeroTests t, c.Exact) (h : divideZero t = some t') :
    t'.Regular p ∧ t'.value p.ρ = t.value p.ρ := by
  obtain ⟨dividend, divisors, rfl, hzero, rfl⟩ := divideZero_eq_some h
  obtain rfl := eq_num_of_isNear hexact hzero
  refine ⟨.num _, ?_⟩
  rw [hreg.value_nary]
  simp

theorem multiplyZero_keeps {t t' : Tree ℝ} (hexact : ∀ c ∈ multiplyZeroTests t, c.Exact)
    (h : multiplyZero t = some t') : t'.Regular p ∧ t'.value p.ρ = t.value p.ρ := by
  obtain ⟨factors, rfl, hany, rfl⟩ := multiplyZero_eq_some h
  have hzero := exists_zero_of_any hexact hany
  refine ⟨.num _, ?_⟩
  have hprod : NaryOp.mul.gather (factors.map (value p.ρ)) = 0 :=
    List.prod_eq_zero (List.mem_map.2 ⟨_, hzero, value_num _ _⟩)
  rw [value_of_commutes p.ρ rfl, hprod]
  simp

end Simplify

end Fluxion

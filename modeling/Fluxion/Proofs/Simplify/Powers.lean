import Fluxion.Proofs.Expr.NormalForms
import Fluxion.Proofs.Simplify.Normal

/-!
# Bases of powers

Simplification takes powers at the base of a power away and multiplies the exponents, which keeps
the value only where the base that is left is positive. Where the simplified base of a power is
positive, also below all the powers at its base, so is the base of every power that the rules make
of it.
-/

namespace Fluxion

namespace Simplify

open Fluxion.Tree

variable {ρ : String → ℝ}

/-- A power whose base has nothing left to simplify and is positive below all powers, or a tree that
is left as it is and is no other power. -/
def Grounded (ρ : String → ℝ) (t : Tree ℝ) : Prop :=
  (∃ c us, t = .node (.nary .pow) (c :: us) ∧ 0 < c.ground.value ρ ∧ c.Each Settled) ∨
    t.Settled ∧ ∀ c us, t = .node (.nary .pow) (c :: us) → 0 < c.ground.value ρ

theorem grounded_num (a : ℝ) : Grounded ρ (.num a) :=
  Or.inr ⟨settled_num a, fun _ _ h => by cases h⟩

/-- The base is left as it is, or goes with all but its own base. -/
theorem grounded_of_rewrite {c : Tree ℝ} {us : List (Tree ℝ)} (hc : 0 < c.ground.value ρ)
    (hsettled : c.Each Settled) :
    ∀ f ∈ rewrites, ∀ t', f (.node (.nary .pow) (c :: us)) = some t' → Grounded ρ t' := by
  have hpower : ∀ vs, Grounded ρ (.node (.nary .pow) (c :: vs)) :=
    fun vs => Or.inl ⟨c, vs, rfl, hc, hsettled⟩
  simp only [rewrites, List.forall_mem_cons]
  refine ⟨?removeNeutral, ?spliceUp, ?powerZero, ?zeroPower, ?divideZero, ?multiplyZero, ?evaluate,
    ?flatten, ?foldConstants, ?combineTerms, ?subtractTerms, ?combineFactors,
    List.forall_mem_nil _⟩ <;> intro t' h
  case removeNeutral =>
    obtain ⟨op, ts, heq, rfl, -⟩ := removeNeutral_eq_some h
    cases heq
    exact hpower _
  case spliceUp =>
    -- with no exponent left the power is spliced up to its base
    obtain ⟨op, ⟨heq, -⟩ | heq⟩ := spliceUp_eq_some h
    · cases heq
    · cases heq
      refine Or.inr ⟨hsettled.self, fun d vs heq => ?_⟩
      rw [heq, ground_pow] at hc
      exact hc
  case powerZero =>
    obtain ⟨base, exponents, -, -, rfl⟩ := powerZero_eq_some h
    exact grounded_num _
  case zeroPower =>
    obtain ⟨base, exponents, -, -, rfl⟩ := zeroPower_eq_some h
    exact grounded_num _
  case divideZero | multiplyZero | combineTerms | subtractTerms | combineFactors => cases h
  case evaluate =>
    obtain ⟨op, ts, e, a, -, -, -, -, rfl⟩ := evaluate_eq_some h
    exact grounded_num a
  case flatten =>
    obtain ⟨op, first, others, heq, hinlined, rfl⟩ := flatten_eq_some h
    cases heq
    have hbase : (isInlined (some .pow) c || us.any (isInlined none)) = true := hinlined
    rw [not_any_isInlined_none, Bool.or_false] at hbase
    obtain ⟨op, ts, hop, rfl⟩ := isInlined_eq_true hbase
    cases hop
    obtain ⟨hts, hself⟩ := each_node.1 hsettled
    have htwo := (normalOperands_of_settled hself).two
    obtain ⟨u, ts, rfl⟩ := List.exists_cons_of_length_pos (Nat.lt_of_lt_of_le Nat.two_pos htwo)
    rw [ground_pow] at hc
    exact Or.inl ⟨u, _, rfl, hc, hts u (List.mem_cons_self ..)⟩
  case foldConstants =>
    obtain ⟨op, first, others, vs, heq, rfl, -, hvs⟩ := foldConstants_eq_some h
    cases heq
    rcases hvs with ⟨hop, -⟩ | ⟨hop, -⟩ | ⟨-, -, rfl⟩
    · simp at hop
    · simp at hop
    · exact hpower _

/-- The base of a settled power is no power. -/
theorem ground_of_settled {α : Type} [Scalar α] {t : Tree α} {ts : List (Tree α)}
    (h : (Tree.node (.nary .pow) (t :: ts)).Settled) : t.ground = t := by
  have hbase : t.isOperator (.nary .pow) = false :=
    (normalOperands_of_settled h).flat_base rfl t rfl
  unfold ground
  split
  · cases hbase
  · rfl

/-- A power that simplification makes of one whose base is positive below all powers has such a base
again. -/
theorem ground_pos_of_root {t : Tree ℝ} {ts : List (Tree ℝ)} (ht : 0 < t.ground.value ρ)
    (hsettled : t.Each Settled) {c : Tree ℝ} {us : List (Tree ℝ)}
    (h : (root (.node (.nary .pow) (t :: ts))).result = .node (.nary .pow) (c :: us)) :
    0 < c.ground.value ρ := by
  have hrewrites : ∀ f ∈ rewrites, Respects (fun t t' => Grounded ρ t → Grounded ρ t') f := by
    rintro f hf t t' h (⟨c, us, rfl, hc, hsettled⟩ | ⟨hsettled, -⟩)
    · exact grounded_of_rewrite hc hsettled f hf t' h
    · rw [settled_iff.1 hsettled f hf] at h
      cases h
  have hroot : Grounded ρ (root (.node (.nary .pow) (t :: ts))).result :=
    root_respects (R := fun t t' => Grounded ρ t → Grounded ρ t') (fun _ h => h)
      (fun _ _ _ hst htu hs => htu (hst hs)) hrewrites _ (Or.inl ⟨t, ts, rfl, ht, hsettled⟩)
  rcases hroot with ⟨c', us', heq, hc', -⟩ | ⟨-, hpower⟩
  · rw [h] at heq
    cases heq
    exact hc'
  · exact hpower c us h

end Simplify

namespace Expr

open Simplify

variable {p : Point}

/-- A power with a positive base may be the base of a power. -/
theorem PositiveBase.power {b : Expr ℝ} (h : PositiveBase p b) (hready : b.Ready p) (e : Expr ℝ) :
    PositiveBase p (binary .pow b e) where
  pos := by
    rw [binary, value]
    exact NaryOp.foldl_pow_pos h.pos _
  ground hexact c us hpower := by
    have hbase : b.TestsExact := (testsExact_nary.1 hexact).1 b (List.mem_cons_self ..)
    have hground := h.ground_pos hbase (hready.simplify hbase).2
    rw [binary, normalForm_nary, List.map_cons] at hpower
    exact ground_pos_of_root hground b.toTree.simplify_settled hpower

end Expr

end Fluxion

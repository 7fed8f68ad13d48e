import Fluxion.Proofs.Expr.Trees
import Fluxion.Proofs.Simplify.Keeps

/-!
# Constants and inlined operands keep values

The rules that put a value in place of an expression without variables, inline operands and gather
constants. None of them tests a constant.
-/

namespace Fluxion.Simplify

open Fluxion.Tree

variable {p : Point}

/-! ## Values of expressions without variables -/

/-- An expression without variables becomes the constant that is its value. -/
theorem evaluate_keeps {t t' : Tree ℝ} (h : evaluate t = some t') :
    t'.Regular p ∧ t'.value p.ρ = t.value p.ρ := by
  obtain ⟨op, ts, e, a, rfl, -, he, ha, rfl⟩ := evaluate_eq_some h
  obtain ⟨covers, rfl⟩ := Expr.eval_eq_ok_iff.1 ha
  refine ⟨.num _, ?_⟩
  rw [value_num, ← Expr.toTree_of_toExpr he, Expr.value_toTree]
  exact Expr.value_congr fun x hx => by cases covers x hx

/-- What has a variable is not evaluated. -/
theorem evaluate_eq_none {α : Type} [Scalar α] {t : Tree α} {x : String} (h : x ∈ t.leafNames) :
    evaluate t = none := by
  refine Option.eq_none_iff_forall_ne_some.2 fun t' ht' => ?_
  obtain ⟨op, ts, e, a, rfl, -, he, ha, -⟩ := evaluate_eq_some ht'
  rw [← Expr.toTree_of_toExpr he, Expr.leafNames_toTree] at h
  cases Expr.covers_of_eval_eq_ok ha x h

/-! ## Inlined operands -/

/-- An inlined operand has operands, as it is regular. -/
theorem spread_ne_nil {inner : Option NaryOp} {t : Tree ℝ} (h : t.Regular p) :
    spread inner t ≠ [] := by
  unfold spread
  split
  · next hinlined =>
    obtain ⟨op, ts, -, rfl⟩ := isInlined_eq_true hinlined
    exact (Regular.nary_iff.1 h).1
  · exact List.cons_ne_nil _ _

/-- Later operands are inlined where the inner operator gathers as the outer one. -/
theorem gather_of_inlinedLater? {op inner : NaryOp} (h : inlinedLater? op = some inner) :
    inner.commutes = true ∧ inner.gather = op.gather := by
  cases op with
  | add | mul | sub => cases h; exact ⟨rfl, rfl⟩
  | div | pow => cases h

/-- The operands of an inlined node come to its value. -/
theorem gather_spread (ρ : String → ℝ) (op : NaryOp) (t : Tree ℝ) :
    op.gather ((spread (inlinedLater? op) t).map (value ρ)) = t.value ρ := by
  unfold spread
  split
  · next hinlined =>
    obtain ⟨inner, ts, hinner, rfl⟩ := isInlined_eq_true hinlined
    obtain ⟨hcommutes, hgather⟩ := gather_of_inlinedLater? hinner
    rw [operands, ← hgather, value_of_commutes ρ hcommutes]
  · exact op.gather_singleton _

/-- Some operands come to the same whether or not they are inlined. -/
theorem gather_flatMap_spread (ρ : String → ℝ) (op : NaryOp) (ts : List (Tree ℝ)) :
    op.gather ((ts.flatMap (spread (inlinedLater? op))).map (value ρ)) =
      op.gather (ts.map (value ρ)) := by
  induction ts with
  | nil => rfl
  | cons t ts ih =>
    rw [List.flatMap_cons, List.map_append, NaryOp.gather_append, ih, gather_spread,
      List.map_cons, NaryOp.gather_cons]

theorem not_any_isInlined_none (ts : List (Tree ℝ)) : ts.any (isInlined none) = false :=
  List.any_eq_false.2 fun _ _ h => by cases h

/-- A power at the base of a power gives way to its own base and exponents. -/
theorem flattenBase_keeps {u : Tree ℝ} {us es : List (Tree ℝ)}
    (hreg : (node (.nary .pow) (node (.nary .pow) (u :: us) :: es)).Regular p) :
    (node (.nary .pow) (u :: us ++ es)).Regular p ∧
      (node (.nary .pow) (u :: us ++ es)).value p.ρ =
        (node (.nary .pow) (node (.nary .pow) (u :: us) :: es)).value p.ρ := by
  obtain ⟨-, hts, hadm⟩ := Regular.nary_iff.1 hreg
  obtain ⟨hbase, hes⟩ := List.forall_mem_cons.1 hts
  obtain ⟨-, hus, hadm'⟩ := Regular.nary_iff.1 hbase
  constructor
  · refine .nary (List.cons_ne_nil _ _) (List.forall_mem_append.2 ⟨hus, hes⟩) ?_
    -- the exponents together are whole only if they are so in both powers
    rcases hadm with hground | ⟨-, -, hwhole⟩
    · exact Or.inl (by rwa [ground_pow] at hground)
    rcases hadm' with hground | ⟨hne, hpos, hwhole'⟩
    · exact Or.inl hground
    · exact Or.inr ⟨hne, hpos, List.forall_mem_append.2 ⟨hwhole', hwhole⟩⟩
  · rw [List.cons_append, value_nary_cons, value_nary_cons, value_nary_cons, List.map_append,
      List.foldl_append]

/-- Inlining keeps the value, although the operators differ in which of their operands they inline.
-/
theorem flatten_keeps {t t' : Tree ℝ} (hreg : t.Regular p) (h : flatten t = some t') :
    t'.Regular p ∧ t'.value p.ρ = t.value p.ρ := by
  obtain ⟨op, first, others, rfl, hinlined, rfl⟩ := flatten_eq_some h
  obtain ⟨-, hts, -⟩ := Regular.nary_iff.1 hreg
  obtain ⟨hfirst, hothers⟩ := List.forall_mem_cons.1 hts
  have hlater : ∀ s ∈ others.flatMap (spread (inlinedLater? op)), s.Regular p := by
    intro s hs
    obtain ⟨o, ho, hs⟩ := List.mem_flatMap.1 hs
    exact hereditary_regular.spread (hothers o ho) s hs
  have hall : ∀ s ∈ spread (inlinedFirst? op) first ++ others.flatMap (spread (inlinedLater? op)),
      s.Regular p :=
    List.forall_mem_append.2 ⟨hereditary_regular.spread hfirst, hlater⟩
  have hgather := gather_flatMap_spread p.ρ op others
  -- sums and products take in all their operands, a difference only those after the first, and a
  -- power only its base; the operands of a quotient are left as they are
  cases op with
  | add | mul =>
    refine Regular.replace_all rfl ?_ hall (gather_flatMap_spread p.ρ _ (first :: others))
    exact List.append_ne_nil_of_left_ne_nil (spread_ne_nil hfirst) _
  | sub => exact hreg.replace_others hlater hgather trivial
  | div =>
    have hnone : others.any (isInlined none) = true := hinlined
    rw [not_any_isInlined_none] at hnone
    cases hnone
  | pow =>
    have hbase : (isInlined (some .pow) first || others.any (isInlined none)) = true := hinlined
    rw [not_any_isInlined_none, Bool.or_false] at hbase
    obtain ⟨inner, us, hinner, rfl⟩ := isInlined_eq_true hbase
    cases hinner
    obtain ⟨u, us, rfl⟩ := List.exists_cons_of_ne_nil (Regular.nary_iff.1 hfirst).1
    have hspread : others.flatMap (spread (inlinedLater? .pow)) = others :=
      List.flatMap_singleton' others
    rw [hspread]
    exact flattenBase_keeps hreg

/-! ## Gathered constants -/

theorem eq_num_of_value? {α : Type} {t : Tree α} {a : α} (h : t.value? = some a) : t = .num a := by
  cases t with
  | num b => cases h; rfl
  | var x => cases h
  | node op ts => cases h

theorem eq_num_of_isConstant {α : Type} {t : Tree α} (h : isConstant t = true) :
    ∃ a, t = .num a := by
  obtain ⟨a, ha⟩ := Option.isSome_iff_exists.1 h
  exact ⟨a, eq_num_of_value? ha⟩

theorem withoutConstants_cons_of_constant {t : Tree ℝ} (h : isConstant t = true)
    (ts : List (Tree ℝ)) : withoutConstants (t :: ts) = withoutConstants ts :=
  List.filter_cons_of_neg (by rw [h]; exact Bool.false_ne_true)

theorem withoutConstants_cons_of_not_constant {t : Tree ℝ} (h : ¬isConstant t = true)
    (ts : List (Tree ℝ)) : withoutConstants (t :: ts) = t :: withoutConstants ts :=
  List.filter_cons_of_pos (by rw [Bool.eq_false_iff.2 h]; rfl)

/-- What the operands come to is what the constants come to with what the others come to. -/
theorem gather_constants (ρ : String → ℝ) (op : NaryOp) (ts : List (Tree ℝ)) :
    op.gather (ts.map (value ρ)) =
      (gathering op).apply (op.gather (ts.filterMap value?))
        (op.gather ((withoutConstants ts).map (value ρ))) := by
  induction ts with
  | nil => exact (op.gathering_neutral _).symm.trans (by rw [← op.gather_nil]; rfl)
  | cons t ts ih =>
    rw [List.map_cons, NaryOp.gather_cons, ih]
    by_cases ht : isConstant t = true
    · obtain ⟨a, rfl⟩ := eq_num_of_isConstant ht
      have hsome : (Tree.num a).value? = some a := rfl
      rw [withoutConstants_cons_of_constant ht, value_num, List.filterMap_cons_some hsome,
        NaryOp.gather_cons, NaryOp.gathering_assoc]
    · have hnone : t.value? = none := by simpa [isConstant] using ht
      rw [withoutConstants_cons_of_not_constant ht, List.filterMap_cons_none hnone, List.map_cons,
        NaryOp.gather_cons, NaryOp.gathering_left_comm]

/-- What is put in place of the constants is what they come to. -/
theorem gathered?_eq_some {op : NaryOp} {ts : List (Tree ℝ)} {a : ℝ}
    (h : gathered? op ts = some a) : a = op.gather (ts.filterMap value?) := by
  unfold gathered? at h
  split at h
  · cases h
  · next b bs hbs =>
    cases h
    rw [hbs]
    cases op with
    | add | sub => exact NaryOp.foldl_add b bs
    | mul | div | pow => exact NaryOp.foldl_mul b bs

/-- Constants are gathered only if there are some. -/
theorem exists_constant_of_gathered? {op : NaryOp} {ts : List (Tree ℝ)} {a : ℝ}
    (h : gathered? op ts = some a) : ∃ t ∈ ts, isConstant t = true := by
  unfold gathered? at h
  split at h
  · cases h
  · next b bs hbs =>
    have hb : b ∈ ts.filterMap value? := by
      rw [hbs]
      exact List.mem_cons_self ..
    obtain ⟨t, ht, htb⟩ := List.mem_filterMap.1 hb
    exact ⟨t, ht, by rw [isConstant, htb]; rfl⟩

/-- The constant counts the same wherever it is put. -/
theorem gather_placeConstant (ρ : String → ℝ) (op : NaryOp) (a : ℝ) {ts : List (Tree ℝ)}
    (h : ∃ t ∈ ts, isConstant t = true) :
    op.gather ((placeConstant a ts).map (value ρ)) =
      (gathering op).apply a (op.gather ((withoutConstants ts).map (value ρ))) := by
  induction ts with
  | nil => obtain ⟨t, ht, -⟩ := h; cases ht
  | cons t ts ih =>
    by_cases ht : isConstant t = true
    · rw [placeConstant, if_pos ht, withoutConstants_cons_of_constant ht, List.map_cons, value_num,
        NaryOp.gather_cons]
    · obtain ⟨s, hs, hconstant⟩ := h
      have hs : s ∈ ts := by
        rcases List.mem_cons.1 hs with rfl | hs
        · exact absurd hconstant ht
        · exact hs
      rw [placeConstant, if_neg ht, withoutConstants_cons_of_not_constant ht, List.map_cons,
        List.map_cons, NaryOp.gather_cons, NaryOp.gather_cons, ih ⟨s, hs, hconstant⟩,
        NaryOp.gathering_left_comm]

/-- Operands come to the same with their constants gathered. -/
theorem gather_gatherConstants (ρ : String → ℝ) (op : NaryOp) (ts : List (Tree ℝ)) :
    op.gather ((gatherConstants op ts).map (value ρ)) = op.gather (ts.map (value ρ)) := by
  unfold gatherConstants
  split
  · rfl
  · next a ha =>
    rw [gather_placeConstant ρ op a (exists_constant_of_gathered? ha), gathered?_eq_some ha,
      ← gather_constants]

theorem gatherConstants_ne_nil {op : NaryOp} {ts : List (Tree ℝ)} (h : ts ≠ []) :
    gatherConstants op ts ≠ [] := by
  obtain ⟨t, us, rfl⟩ := List.exists_cons_of_ne_nil h
  unfold gatherConstants
  split
  · exact List.cons_ne_nil _ _
  · unfold placeConstant
    split <;> exact List.cons_ne_nil _ _

/-- The product of divisors that are not zero is not zero. -/
theorem gathered?_div_ne_zero {ts : List (Tree ℝ)} (hne : ∀ t ∈ ts, t.value p.ρ ≠ 0) {a : ℝ}
    (h : gathered? .div ts = some a) : a ≠ 0 := by
  rw [gathered?_eq_some h]
  refine List.prod_ne_zero fun hzero => ?_
  obtain ⟨t, ht, hvalue⟩ := List.mem_filterMap.1 hzero
  obtain rfl := eq_num_of_value? hvalue
  exact hne _ ht (value_num _ _)

/-- The product of divisors that are not zero is not zero. -/
theorem gatherConstants_div_ne_zero {ts : List (Tree ℝ)} (hne : ∀ t ∈ ts, t.value p.ρ ≠ 0) :
    ∀ s ∈ gatherConstants .div ts, s.value p.ρ ≠ 0 := by
  intro s hs
  rcases mem_gatherConstants hs with hs | ⟨a, ha, rfl⟩
  · exact hne s hs
  · rw [value_num]
    exact gathered?_div_ne_zero hne ha

/-- The product of whole exponents is whole. -/
theorem gatherConstants_pow_whole {ts : List (Tree ℝ)} (h : ∀ t ∈ ts, ∃ n : ℕ, t = .num n) :
    ∀ s ∈ gatherConstants .pow ts, ∃ n : ℕ, s = .num n := by
  intro s hs
  rcases mem_gatherConstants hs with hs | ⟨a, ha, rfl⟩
  · exact h s hs
  · have hconstants : ∀ b ∈ ts.filterMap value?, ∃ n : ℕ, b = n := by
      intro b hb
      obtain ⟨t, ht, hvalue⟩ := List.mem_filterMap.1 hb
      obtain ⟨n, rfl⟩ := h t ht
      cases hvalue
      exact ⟨n, rfl⟩
    obtain ⟨m, hm⟩ := NaryOp.exists_natCast_prod hconstants
    rw [gathered?_eq_some ha]
    exact ⟨m, congrArg Tree.num hm⟩

/-- A constant minuend or dividend takes in what the constants after it come to. -/
theorem apply_gathering {op : NaryOp} (hop : op = .sub ∨ op = .div) (a b c : ℝ) :
    op.apply (op.apply a b) c = op.apply a ((gathering op).apply b c) := by
  rcases hop with rfl | rfl
  · exact sub_sub a b c
  · exact div_div a b c

/-- Subtrahends and divisors are gathered behind the first operand. -/
theorem gatherRight_keeps {op : NaryOp} {first : Tree ℝ} {others : List (Tree ℝ)}
    (hop : op = .sub ∨ op = .div) (hreg : (node (.nary op) (first :: others)).Regular p) :
    (node (.nary op) (gatherRight op first others)).Regular p ∧
      (node (.nary op) (gatherRight op first others)).value p.ρ =
        (node (.nary op) (first :: others)).value p.ρ := by
  have hpow : op ≠ .pow := by rcases hop with rfl | rfl <;> exact fun h => by cases h
  obtain ⟨-, hts, hadm⟩ := Regular.nary_iff.1 hreg
  obtain ⟨-, hothers⟩ := List.forall_mem_cons.1 hts
  have hdivisors : op = .div → ∀ s ∈ others, s.value p.ρ ≠ 0 := by
    rintro rfl
    exact hadm
  unfold gatherRight
  split
  · next a b ha hb =>
    -- the constants after a constant minuend or dividend go into it
    obtain rfl := eq_num_of_value? ha
    have hreg' : (node (.nary op) (.num (op.apply a b) :: withoutConstants others)).Regular p := by
      refine .nary (List.cons_ne_nil _ _) (List.forall_mem_cons.2 ⟨.num _, ?_⟩)
        (admitted_of_ne_pow hpow ?_)
      · exact fun s hs => hothers s (List.mem_of_mem_filter hs)
      · exact fun h s hs => hdivisors h s (List.mem_of_mem_filter hs)
    refine ⟨hreg', ?_⟩
    rw [hreg'.value_nary, hreg.value_nary, value_num, value_num, apply_gathering hop,
      gather_constants p.ρ op others, gathered?_eq_some hb]
  · refine hreg.replace_others (hereditary_regular.gatherConstants hothers)
      (gather_gatherConstants _ _ _) (admitted_of_ne_pow hpow ?_)
    rintro rfl
    exact gatherConstants_div_ne_zero (hdivisors rfl)

/-- Gathering constants keeps the value, for each operator in the way that fits it. -/
theorem foldConstants_keeps {t t' : Tree ℝ} (hreg : t.Regular p) (h : foldConstants t = some t') :
    t'.Regular p ∧ t'.value p.ρ = t.value p.ρ := by
  obtain ⟨op, first, others, us, rfl, rfl, -, hus⟩ := foldConstants_eq_some h
  obtain ⟨hne, hts, hadm⟩ := Regular.nary_iff.1 hreg
  have hall : ∀ u ∈ gatherConstants op (first :: others), u.Regular p :=
    hereditary_regular.gatherConstants hts
  have hgather := gather_gatherConstants p.ρ op (first :: others)
  rcases hus with ⟨rfl | rfl, rfl⟩ | ⟨hop, rfl⟩ | ⟨rfl, -, rfl⟩
  · exact Regular.replace_all rfl (gatherConstants_ne_nil hne) hall hgather
  · exact Regular.replace_all rfl (gatherConstants_ne_nil hne) hall hgather
  · exact gatherRight_keeps hop hreg
  · refine hreg.replace_others
      (hereditary_regular.gatherConstants (List.forall_mem_cons.1 hts).2)
      (gather_gatherConstants _ _ _) ?_
    -- gathering keeps the exponents whole, if they had to be
    rcases hadm with hground | ⟨hne, hpos, hwhole⟩
    · exact Or.inl hground
    · exact Or.inr ⟨hne, hpos, gatherConstants_pow_whole hwhole⟩

end Fluxion.Simplify

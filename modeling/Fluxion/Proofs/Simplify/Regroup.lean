import Fluxion.Proofs.Simplify.Names
import Fluxion.Proofs.Simplify.Normal
import Fluxion.Proofs.Simplify.Runs
import Fluxion.Proofs.Tree.Formed
import Fluxion.Proofs.Tree.Regroup

/-!
# Powers of several exponents are flattened again

What simplification leaves of a tree may have powers of several exponents. Nested one level at a
time (`Tree.regroup`) they are flattened again by simplification, and nothing else happens
(`Tree.simplify_regroup`). That needs that base and first exponent of such a power are not both
constants, for these two would be evaluated first. No power that is simplified from one of a single
exponent has two such (`Tree.each_open_simplify`).
-/

namespace Fluxion

variable {α : Type} [Scalar α]

open Fluxion.Tree

namespace Tree

omit [Scalar α] in
/-- The root is no power with a constant base and a constant first exponent. -/
def Open (t : Tree α) : Prop :=
  ∀ b e es, t = node (.nary .pow) (b :: e :: es) →
    ¬(Simplify.isConstant b = true ∧ Simplify.isConstant e = true)

omit [Scalar α] in
/-- The same of powers with more exponents than one. -/
def OpenFurther (t : Tree α) : Prop :=
  ∀ b e es, es ≠ [] → t = node (.nary .pow) (b :: e :: es) →
    ¬(Simplify.isConstant b = true ∧ Simplify.isConstant e = true)

end Tree

namespace Simplify

theorem isConstant_of_isNear {t : Tree α} {a : α} (h : t.isNear a = true) :
    isConstant t = true := by
  cases t with
  | num b => rfl
  | var x => cases h
  | node op ts => cases h

/-! ## Powers with two constants in front do not come up -/

omit [Scalar α] in
/-- Only powers can have something left to do with another exponent. -/
theorem openFurther_of_ne_pow {t : Tree α} (h : ∀ ts, t ≠ .node (.nary .pow) ts) :
    t.OpenFurther :=
  fun _ _ _ _ heq => absurd heq (h _)

/-- Of the exponents of an open power those that are left out do not come first. -/
theorem openFurther_kept {ts : List (Tree α)} (h : (node (.nary .pow) ts).OpenFurther) :
    (node (.nary .pow) (keptOperands .pow ts)).OpenFurther := by
  cases ts with
  | nil =>
    intro b e es _ heq
    cases heq
  | cons b ts =>
    rintro b' e es hes heq ⟨hb, he⟩
    have hkept : b :: withoutNeutral .pow ts = b' :: e :: es := (node.inj heq).2
    obtain ⟨rfl, htail⟩ := List.cons.inj hkept
    cases ts with
    | nil => cases htail
    | cons t ts =>
      -- something is left behind the exponent, so something was there before
      have hts : ts ≠ [] := by
        rintro rfl
        have hlength := congrArg List.length htail
        have hle : (withoutNeutral .pow [t]).length ≤ 1 := List.length_filter_le _ _
        have hpos := List.length_pos_iff.2 hes
        simp only [List.length_cons] at hlength
        omega
      refine h b t ts hts rfl ⟨hb, ?_⟩
      -- a first exponent near one is a constant; any other is not left out
      cases hnear : t.isNear (neutral .pow : α) with
      | true => exact isConstant_of_isNear hnear
      | false =>
        have hcons : withoutNeutral .pow (t :: ts) = t :: withoutNeutral .pow ts :=
          List.filter_cons_of_pos (by rw [hnear]; rfl)
        rw [hcons] at htail
        rw [(List.cons.inj htail).1]
        exact he

/-- Gathering constants among the exponents leaves a first exponent that is none. -/
theorem openFurther_gathered {b : Tree α} {ts : List (Tree α)}
    (h : (node (.nary .pow) (b :: ts)).OpenFurther) :
    (node (.nary .pow) (b :: gatherConstants .pow ts)).OpenFurther := by
  rintro b' e es hes heq ⟨hb, he⟩
  obtain ⟨rfl, hgathered⟩ := List.cons.inj (node.inj heq).2
  cases ts with
  | nil => cases hgathered
  | cons t ts =>
    -- the constant that is gathered stands where the first one stood
    cases hconstant : isConstant t with
    | true =>
      have hts : ts ≠ [] := by
        rintro rfl
        unfold gatherConstants at hgathered
        split at hgathered
        · cases hgathered
          exact hes rfl
        · rw [placeConstant, if_pos hconstant] at hgathered
          cases hgathered
          exact hes rfl
      exact h b t ts hts rfl ⟨hb, hconstant⟩
    | false =>
      have hfirst : e = t := by
        unfold gatherConstants at hgathered
        split at hgathered
        · exact (List.cons.inj hgathered).1.symm
        · rw [placeConstant, if_neg (by rw [hconstant]; exact Bool.false_ne_true)] at hgathered
          exact (List.cons.inj hgathered).1.symm
      rw [hfirst, hconstant] at he
      cases he

omit [Scalar α] in
theorem openFurther_num (a : α) : (num a).OpenFurther :=
  openFurther_of_ne_pow fun _ h => (nomatch h)

omit [Scalar α] in
theorem openFurther_nary {op : NaryOp} {ts : List (Tree α)} (hop : op ≠ .pow) :
    (node (.nary op) ts).OpenFurther :=
  openFurther_of_ne_pow fun _ h => hop (Operator.nary.inj (node.inj h).1)

/-- Only the base of a power is spread, and it has a base and a first exponent itself. -/
theorem openFurther_flattened {first : Tree α} {others : List (Tree α)}
    (hfirst : first.Each fun s => s.Settled ∧ s.Open)
    (hinlined : (isInlined (inlinedFirst? .pow) first ||
      others.any (isInlined (inlinedLater? .pow))) = true) :
    (node (.nary .pow) (spread (inlinedFirst? .pow) first ++
      others.flatMap (spread (inlinedLater? .pow)))).OpenFurther := by
  have hnone : others.any (isInlined none) = false :=
    List.any_eq_false.2 fun _ _ => Bool.false_ne_true
  -- no exponent is inlined, so the base is a power
  have hbase : isInlined (some .pow) first = true := by
    rcases Bool.or_eq_true_iff.1 hinlined with h | h
    · exact h
    · exact absurd (hnone.symm.trans h) Bool.false_ne_true
  obtain ⟨op, us, hsome, rfl⟩ := isInlined_eq_true hbase
  cases hsome
  have htwo : 2 ≤ us.length :=
    two_of_spliceUp (settled_iff.1 hfirst.self.1 spliceUp (by simp [rewrites]))
  obtain ⟨b, e, us, rfl⟩ : ∃ b e us', us = b :: e :: us' := by
    obtain ⟨b, rest, rfl⟩ := List.exists_cons_of_length_pos (Nat.zero_lt_of_lt htwo)
    obtain ⟨e, us, rfl⟩ := List.exists_cons_of_length_pos (Nat.lt_of_succ_lt_succ htwo)
    exact ⟨b, e, us, rfl⟩
  -- the operands of the base come first, and the base was open
  intro b' e' es _ heq
  have hoperands : b :: e :: (us ++ others.flatMap (spread none)) = b' :: e' :: es :=
    (node.inj heq).2
  obtain ⟨rfl, htail⟩ := List.cons.inj hoperands
  obtain ⟨rfl, -⟩ := List.cons.inj htail
  exact hfirst.self.2 b e us rfl

/-- Where constants are gathered the base of a power stays. -/
theorem openFurther_folded {t t' : Tree α} (h : foldConstants t = some t') (hopen : t.OpenFurther) :
    t'.OpenFurther := by
  obtain ⟨op, first, others, us, rfl, rfl, -, hus⟩ := foldConstants_eq_some h
  rcases hus with ⟨rfl | rfl, rfl⟩ | ⟨rfl | rfl, rfl⟩ | ⟨rfl, -, rfl⟩
  · exact openFurther_nary (by decide)
  · exact openFurther_nary (by decide)
  · exact openFurther_nary (by decide)
  · exact openFurther_nary (by decide)
  · exact openFurther_gathered hopen

/-- A power of settled operands that is open further on stays one. -/
theorem rewrites_openFurther : ∀ f ∈ rewrites (α := α), Respects (fun t t' =>
    BelowRoot (Each fun s => s.Settled ∧ s.Open) t → t.OpenFurther → t'.OpenFurther) f := by
  have hconstant : ∀ {t : Tree α}, (∃ a, t = num a) → t.OpenFurther := by
    rintro t ⟨a, rfl⟩
    exact openFurther_num a
  simp only [rewrites, List.forall_mem_cons]
  refine ⟨?removeNeutral, ?spliceUp, ?powerZero, ?zeroPower, ?divideZero, ?multiplyZero, ?evaluate,
    ?flatten, ?foldConstants, ?combineTerms, ?subtractTerms, ?combineFactors,
    List.forall_mem_nil _⟩ <;> intro t t' h hbelow hopen
  case removeNeutral =>
    obtain ⟨op, ts, rfl, rfl, -⟩ := removeNeutral_eq_some h
    by_cases hop : op = .pow
    · subst hop
      exact openFurther_kept hopen
    · exact openFurther_nary hop
  case spliceUp =>
    obtain ⟨op, ⟨rfl, rfl⟩ | rfl⟩ := spliceUp_eq_some h
    · exact openFurther_num _
    · intro b e es _ heq
      exact (hbelow.operands t' (List.mem_singleton_self _)).self.2 b e es heq
  case powerZero => exact hconstant (shortCircuit_eq_some (Or.inl h))
  case zeroPower => exact hconstant (shortCircuit_eq_some (Or.inr (Or.inl h)))
  case divideZero => exact hconstant (shortCircuit_eq_some (Or.inr (Or.inr (Or.inl h))))
  case multiplyZero => exact hconstant (shortCircuit_eq_some (Or.inr (Or.inr (Or.inr h))))
  case evaluate =>
    obtain ⟨op, ts, e, a, -, -, -, -, rfl⟩ := evaluate_eq_some h
    exact openFurther_num a
  case flatten =>
    obtain ⟨op, first, others, rfl, hinlined, rfl⟩ := flatten_eq_some h
    by_cases hop : op = .pow
    · subst hop
      exact openFurther_flattened (hbelow.operands first List.mem_cons_self) hinlined
    · exact openFurther_nary hop
  case foldConstants => exact openFurther_folded h hopen
  case combineTerms =>
    obtain ⟨ts, rfl, -, rfl⟩ := combineTerms_eq_some.1 h
    exact openFurther_nary (by decide)
  case subtractTerms =>
    obtain ⟨first, others, rfl, -, rfl⟩ := subtractTerms_eq_some.1 h
    exact openFurther_nary (by decide)
  case combineFactors =>
    obtain ⟨ts, rfl, -, rfl⟩ := combineFactors_eq_some.1 h
    exact openFurther_nary (by decide)

/-- Of two constants a settled power is not made. -/
theorem open_of_settled {t : Tree α} (hsettled : t.Settled) (hopen : t.OpenFurther) : t.Open := by
  rintro b e es rfl ⟨hb, he⟩
  cases es with
  | cons e' es => exact hopen b e (e' :: es) (List.cons_ne_nil _ _) rfl ⟨hb, he⟩
  | nil =>
    obtain ⟨a, rfl⟩ := eq_num_of_isConstant hb
    obtain ⟨c, rfl⟩ := eq_num_of_isConstant he
    have hexpr : (node (.nary .pow) [num a, num c]).toExpr =
        .ok (.nary .pow (.num a) [.num c]) := by
      have h := Expr.toExpr_toTree (.nary .pow (.num a) [.num c] : Expr α)
      rwa [Expr.toTree, List.map_singleton, Expr.toTree, Expr.toTree] at h
    obtain ⟨d, hd⟩ := constant_of_evaluate
      (settled_iff.1 hsettled evaluate (by simp [rewrites])) hexpr
      (by simp [hasVariable, leafNames])
    cases hd

variable [LawfulScalar α]

/-- What the rules put in is settled and open. -/
theorem hereditary_open : Hereditary (Each fun s : Tree α => s.Settled ∧ s.Open) := by
  have hsplit : ∀ {t : Tree α},
      t.Each (fun s => s.Settled ∧ s.Open) ↔ t.Each Settled ∧ t.Each Open :=
    ⟨fun h => ⟨h.mono fun _ h => h.1, h.mono fun _ h => h.2⟩, fun h s hs => ⟨h.1 s hs, h.2 s hs⟩⟩
  have hleaf : ∀ a : α, (num a).Each Open := fun a => each_num.2 fun _ _ _ h => (nomatch h)
  have hvar : ∀ x, (var x : Tree α).Each Open := fun x => each_var.2 fun _ _ _ h => (nomatch h)
  refine ⟨⟨fun a => ?num, fun h => (each_node.1 h).1, fun hx hzero hone => ?term⟩,
    fun n hx => ?power⟩
  case num => exact hsplit.2 ⟨hereditary_settled.num a, hleaf a⟩
  case term =>
    refine hsplit.2 ⟨hereditary_settled.term (hsplit.1 hx).1 hzero hone, each_node.2
      ⟨List.forall_mem_cons.2 ⟨hvar _, List.forall_mem_singleton.2 (hleaf _)⟩, ?_⟩⟩
    intro b e es heq
    cases heq
  case power =>
    refine hsplit.2 ⟨hereditary_settled.power n (hsplit.1 hx).1, each_node.2
      ⟨List.forall_mem_cons.2 ⟨hvar _, List.forall_mem_singleton.2 (hleaf _)⟩, ?_⟩⟩
    rintro b e es heq ⟨hb, -⟩
    cases heq
    cases hb

end Simplify

namespace Tree

open Simplify

variable [LawfulScalar α]

/-- In a tree that is simplified from one with powers of single exponents, no power has a constant
base and a constant first exponent. -/
theorem each_open_simplify {t : Tree α} (h : t.Each Formed) :
    t.simplify.Each fun s => s.Settled ∧ s.Open := by
  induction t using operands_induction with
  | num a => rw [simplify_num]; exact hereditary_open.num a
  | var x =>
    rw [simplify_var]
    exact each_var.2 ⟨settled_var x, fun _ _ _ h => (nomatch h)⟩
  | node op ts ih =>
    obtain ⟨hts, hself⟩ := each_node.1 h
    have hoperands : ∀ u ∈ ts.map simplify, u.Each fun s => s.Settled ∧ s.Open := by
      intro u hu
      obtain ⟨t, ht, rfl⟩ := List.mem_map.1 hu
      exact ih t ht (hts t ht)
    have hsettled := root_settled (node op (ts.map simplify))
    rw [simplify_node]
    by_cases hnary : ∃ op', op = .nary op'
    · obtain ⟨op', rfl⟩ := hnary
      -- a power that was read has one exponent, so nothing is asked of it yet
      have hopen : (node (.nary op') (ts.map simplify)).OpenFurther := by
        intro b e es hes heq
        obtain ⟨hop, hts⟩ := node.inj heq
        cases hop
        have htwo := hself.pow ts rfl
        have hlength := congrArg List.length hts
        have hpos := List.length_pos_iff.2 hes
        simp only [List.length_map, List.length_cons] at hlength
        omega
      -- the rules keep it open, as long as the operands are settled
      have hroot := root_respects (R := fun t t' : Tree α =>
        BelowRoot (Each fun s => s.Settled ∧ s.Open) t → t.OpenFurther →
          BelowRoot (Each fun s => s.Settled ∧ s.Open) t' ∧ t'.OpenFurther)
        (fun _ h h' => ⟨h, h'⟩) (fun _ _ _ hst htu h h' => htu (hst h h').1 (hst h h').2)
        (fun f hf t t' hft h h' => ⟨hereditary_open.rewrites f hf t t' hft h,
          rewrites_openFurther f hf t t' hft h h'⟩)
        (node (.nary op') (ts.map simplify)) (Or.inr ⟨op', _, rfl, hoperands⟩) hopen
      exact hroot.1.each ⟨hsettled, open_of_settled hsettled hroot.2⟩
    · have hother : ∀ op' us, node op (ts.map simplify) ≠ node (.nary op') us := fun op' us heq =>
        hnary ⟨op', (node.inj heq).1⟩
      rcases root_of_not_nary hother with hroot | ⟨a, hroot⟩
      · rw [hroot] at hsettled ⊢
        refine each_node.2 ⟨hoperands, hsettled, fun b e es heq => ?_⟩
        exact absurd heq (hother _ _)
      · rw [hroot]
        exact hereditary_open.num a

end Tree

/-! ## Flattening nested powers -/

namespace Simplify

omit [Scalar α] in
/-- The operands of arithmetic that is an expression are expressions. -/
theorem toExpr_of_mem {op : NaryOp} {ts : List (Tree α)} {t : Tree α} {e : Expr α}
    (h : (node (.nary op) ts).toExpr = .ok e) (ht : t ∈ ts) : ∃ d, t.toExpr = .ok d := by
  have htree := Expr.toTree_of_toExpr h
  cases e with
  | num a => rw [Expr.toTree] at htree; cases htree
  | var x => rw [Expr.toTree] at htree; cases htree
  | func f e => rw [Expr.toTree] at htree; cases htree
  | nary op' e es =>
    rw [Expr.toTree] at htree
    rw [← (node.inj htree).2, ← List.map_cons] at ht
    obtain ⟨d, -, rfl⟩ := List.mem_map.1 ht
    exact ⟨d, Expr.toExpr_toTree d⟩

/-- Arithmetic is not evaluated if an operand that is settled is no constant. -/
theorem evaluate_eq_none_of_mem {op : NaryOp} {ts : List (Tree α)} {t : Tree α} (ht : t ∈ ts)
    (hsettled : t.Settled) (hconstant : isConstant t = false) :
    evaluate (node (.nary op) ts) = none := by
  by_contra hsome
  obtain ⟨t', ht'⟩ := Option.ne_none_iff_exists'.1 hsome
  obtain ⟨-, -, e, -, -, -, he, -, -⟩ := evaluate_eq_some ht'
  obtain ⟨d, hd⟩ := toExpr_of_mem he ht
  have hvariable : t.hasVariable = false := by
    rw [hasVariable, Bool.not_eq_false', List.isEmpty_iff, List.eq_nil_iff_forall_not_mem]
    intro x hx
    exact hsome (evaluate_eq_none (mem_leafNames_node.2 ⟨t, ht, hx⟩))
  obtain ⟨c, rfl⟩ :=
    constant_of_evaluate (settled_iff.1 hsettled evaluate (by simp [rewrites])) hd hvariable
  cases hconstant

end Simplify

/-! ## Settled powers -/

/-- Without its last exponent a power of normal operands is one, if an exponent is left. -/
theorem NormalOperands.left {ts : List (Tree α)} {e : Tree α}
    (h : NormalOperands .pow (ts ++ [e])) (htwo : 2 ≤ ts.length) : NormalOperands .pow ts := by
  obtain ⟨t, us, rfl⟩ := List.exists_cons_of_length_pos (Nat.lt_of_lt_of_le Nat.two_pos htwo)
  have hsub : us ⊆ us ++ [e] := List.subset_append_left _ _
  -- all conditions are on single operands, or on their number, which gets smaller
  exact {
    two := htwo
    neutral := fun u hu => h.neutral u (hsub hu)
    neutral_first := by rintro (h | h) <;> cases h
    factor := fun h => nomatch h
    exponent := fun _ u hu => h.exponent rfl u (hsub hu)
    first := fun _ => h.first (Or.inr rfl)
    flat := by rintro (h | h) <;> cases h
    flat_subtrahend := fun h => nomatch h
    flat_base := fun _ => h.flat_base rfl
    folded := fun h => absurd rfl h
    folded_exponents := fun _ =>
      ((List.sublist_append_left us [e]).countP_le).trans (h.folded_exponents rfl)
    terms := by rintro (h | h) <;> cases h
    factors := fun h => nomatch h }

namespace Simplify

/-- A power of normal operands that is not evaluated is settled. -/
theorem settled_power {ts : List (Tree α)} (h : NormalOperands .pow ts)
    (hevaluate : evaluate (node (.nary .pow) ts) = none) : (node (.nary .pow) ts).Settled := by
  match ts, h.two with
  | b :: e :: es, _ =>
    have hbase : isZero b = false := h.first (Or.inr rfl) b rfl
    have hexponents : (e :: es).any isZero = false :=
      List.any_eq_false.2 fun u hu => Bool.eq_false_iff.1 (h.exponent rfl u hu)
    have hkept : withoutNeutral .pow (e :: es) = e :: es :=
      List.filter_eq_self.2 fun u hu => by rw [h.neutral u hu]; rfl
    have hflat : isInlined (some .pow) b = false := h.flat_base rfl b rfl
    have hothers : (e :: es).any (isInlined none) = false :=
      List.any_eq_false.2 fun _ _ => Bool.false_ne_true
    -- the conditions are those under which the rules for powers do not apply
    refine settled_iff.2 ?_
    simp only [rewrites, List.forall_mem_cons]
    refine ⟨?removeNeutral, rfl, ?powerZero, ?zeroPower, rfl, rfl, hevaluate, ?flatten,
      ?foldConstants, rfl, rfl, rfl, List.forall_mem_nil _⟩
    case removeNeutral =>
      refine if_neg ?_
      show ¬(b :: withoutNeutral .pow (e :: es)).length < _
      rw [hkept]
      exact Nat.lt_irrefl _
    case powerZero => exact if_neg (Bool.eq_false_iff.1 hexponents)
    case zeroPower => exact if_neg (Bool.eq_false_iff.1 hbase)
    case flatten =>
      refine if_neg (Bool.eq_false_iff.1 ?_)
      show (isInlined (some .pow) b || (e :: es).any (isInlined none)) = false
      rw [hflat, hothers]
      rfl
    case foldConstants =>
      rw [foldConstants]
      split
      · exact if_neg (Nat.not_le_of_lt (Nat.lt_succ_of_le (h.folded_exponents rfl)))
      · rfl

/-- A power of a power is flattened, and if that is settled nothing else happens. -/
theorem root_power_append {b e : Tree α} {es : List (Tree α)} {u : Tree α}
    (hsettled : (node (.nary .pow) (b :: e :: es ++ [u])).Settled)
    (hbase : (node (.nary .pow) (b :: e :: es)).Settled) :
    (root (node (.nary .pow) [node (.nary .pow) (b :: e :: es), u])).result =
      node (.nary .pow) (b :: e :: es ++ [u]) := by
  have hnormal := normalOperands_of_settled hsettled
  have hu : u ∈ (b :: e :: es ++ [u]).tail := by simp
  have hordinary : ∀ t ∈ [node (.nary .pow) (b :: e :: es), u], Ordinary t :=
    List.forall_mem_cons.2 ⟨ordinary_node _ _,
      List.forall_mem_singleton.2 ⟨hnormal.exponent rfl u hu, hnormal.neutral u hu⟩⟩
  refine root_of_pass_left rfl ?_ hsettled
  have hshort : shortCircuits (node (.nary .pow) [node (.nary .pow) (b :: e :: es), u]) = none := by
    rw [shortCircuits_eq_first, Rule.first_eq_none]
    exact List.forall_mem_map.2 fun r hr => (shortCircuitParts_of_ordinary hordinary r hr).1
  have hevaluate : evaluate (node (.nary .pow) [node (.nary .pow) (b :: e :: es), u]) = none :=
    evaluate_eq_none_of_mem (List.mem_cons_self ..) hbase rfl
  have hflatten : flatten (node (.nary .pow) [node (.nary .pow) (b :: e :: es), u]) =
      some (node (.nary .pow) (b :: e :: es ++ [u])) := rfl
  -- the later groups of rules do nothing with what is settled
  have hlater : Rule.inTurn [Rule.named .foldConstants foldConstants, collections]
      (node (.nary .pow) (b :: e :: es ++ [u])) = none := by
    rw [Rule.inTurn_eq_none]
    intro r hr
    refine Rule.inTurn_eq_none.1 hsettled r ?_
    simp only [List.mem_cons] at hr ⊢
    exact Or.inr (Or.inr (Or.inr (Or.inr hr)))
  rw [pass, Rule.left_inTurn_cons, identities_of_ordinary hordinary (Nat.le_refl 2),
    Rule.left_inTurn_cons, Rule.left_of_eq_none hshort, Rule.left_inTurn_cons,
    Rule.left_of_eq_none (Rule.named_eq_none.2 hevaluate), Rule.left_inTurn_cons,
    Rule.left_named hflatten, Rule.left_of_eq_none hlater]

end Simplify

namespace Tree

open Simplify

/-- Operands that come back one by one come back together. -/
theorem map_simplify_regroup {ts : List (Tree α)} (h : ∀ t ∈ ts, t.regroup.simplify = t) :
    (ts.map regroup).map simplify = ts := by
  rw [List.map_map]
  exact (List.map_congr_left h).trans (List.map_id ts)

/-- A nested power of settled operands is simplified to the power. -/
theorem simplify_nested {ts : List (Tree α)} (hlength : 2 ≤ ts.length)
    (hregroup : ∀ t ∈ ts, t.regroup.simplify = t) (hts : ∀ t ∈ ts, t.Settled)
    (hsettled : (node (.nary .pow) ts).Settled) (hopen : (node (.nary .pow) ts).Open) :
    (nested (.nary .pow) (ts.map regroup)).simplify = node (.nary .pow) ts := by
  revert hregroup hts hsettled hopen
  refine exponents_induction (motive := fun ts => (∀ t ∈ ts, t.regroup.simplify = t) →
    (∀ t ∈ ts, t.Settled) → (node (.nary .pow) ts).Settled → (node (.nary .pow) ts).Open →
    (nested (.nary .pow) (ts.map regroup)).simplify = node (.nary .pow) ts) ?pair ?append ts hlength
  case pair =>
    intro t u hregroup _ hsettled _
    show (node (.nary .pow) ([t, u].map regroup)).simplify = _
    rw [simplify_node, map_simplify_regroup hregroup, root_of_settled hsettled]
  -- the exponents in front are simplified to a power, to which the last is joined
  case append =>
    intro ts u hlength ih hregroup hts hsettled hopen
    obtain ⟨hregroup, hregroup'⟩ := List.forall_mem_append.1 hregroup
    obtain ⟨hts, -⟩ := List.forall_mem_append.1 hts
    match ts, hlength with
    | b :: e :: es, _ =>
      have hopen' : (node (.nary .pow) (b :: e :: es)).Open := by
        intro b' e' es' heq
        cases heq
        exact hopen b e (es ++ [u]) rfl
      -- the base and its exponent are not both constants, so nothing is evaluated on the way
      have hevaluate : evaluate (node (.nary .pow) (b :: e :: es)) = none := by
        cases hb : isConstant b with
        | false =>
          exact evaluate_eq_none_of_mem (List.mem_cons_self ..) (hts b (List.mem_cons_self ..)) hb
        | true =>
          have he : isConstant e = false :=
            Bool.eq_false_iff.2 fun he => hopen b e (es ++ [u]) rfl ⟨hb, he⟩
          exact evaluate_eq_none_of_mem (t := e) (by simp) (hts e (by simp)) he
      have hbase := settled_power ((normalOperands_of_settled hsettled).left (by simp)) hevaluate
      rw [List.map_append, List.map_singleton, nested_append (by simp), simplify_node,
        List.map_cons, List.map_singleton, ih hregroup hts hbase hopen',
        hregroup' u (List.mem_singleton_self u)]
      exact root_power_append hsettled hbase

/-- Powers that are nested are flattened again, and nothing else is simplified. -/
theorem simplify_regroup {t : Tree α} (h : t.Each fun s => s.Settled ∧ s.Open) :
    t.regroup.simplify = t := by
  induction t using operands_induction with
  | num a => rw [regroup_num, simplify_num]
  | var x => rw [regroup_var, simplify_var]
  | node op ts ih =>
    obtain ⟨hts, hsettled, hopen⟩ := each_node.1 h
    have hregroup : ∀ t ∈ ts, t.regroup.simplify = t := fun t ht => ih t ht (hts t ht)
    by_cases hop : op = .nary .pow
    · subst hop
      rw [regroup_node]
      exact simplify_nested (normalOperands_of_settled hsettled).two hregroup
        (fun t ht => (hts t ht).self.1) hsettled hopen
    · rw [regroup_of_ne_pow hop, simplify_node, map_simplify_regroup hregroup,
        root_of_settled hsettled]

end Tree

end Fluxion

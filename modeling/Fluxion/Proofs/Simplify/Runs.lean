import Fluxion.Proofs.Scalar.Lawful
import Fluxion.Proofs.Simplify.Constants

/-!
# Runs without an inexact comparison

How to follow a simplification by hand, together with the comparisons of constants that it makes:
`Turns` goes through the rules of one pass, `Reduces` through the passes at a root and
`Expr.NormalizesTo` through the operands and then the root. The first two groups of rules do nothing
with operands that are no constants near zero or one, and compare them exactly.
-/

namespace Fluxion

variable {α : Type} [Scalar α]

/-! ## What a rule leaves -/

omit [Scalar α] in
/-- What the rule makes of a tree, the tree itself where the rule does not apply. -/
def Rule.left (r : Rule α) (t : Tree α) : Tree α :=
  match r t with
  | none => t
  | some w => w.result

namespace Rule

omit [Scalar α] in
theorem left_of_eq_none {r : Rule α} {t : Tree α} (h : r t = none) : r.left t = t := by
  rw [left, h]

omit [Scalar α] in
theorem left_of_eq_some {r : Rule α} {t : Tree α} {w : Rewrite α} (h : r t = some w) :
    r.left t = w.result := by
  rw [left, h]

omit [Scalar α] in
theorem left_named {step : Step} {f : Tree α → Option (Tree α)} {t t' : Tree α}
    (h : f t = some t') : (named step f).left t = t' :=
  left_of_eq_some (w := ⟨t', [step]⟩) (by rw [named, h]; rfl)

omit [Scalar α] in
/-- Rules in turn are left with what the later ones leave of what the first leaves. -/
theorem left_inTurn_cons (r : Rule α) (rs : List (Rule α)) (t : Tree α) :
    (inTurn (r :: rs)).left t = (inTurn rs).left (r.left t) := by
  cases hr : r t with
  | none =>
    rw [left_of_eq_none hr, left, left, inTurn, hr]
  | some w =>
    rw [left_of_eq_some hr, left, left, inTurn, hr]
    dsimp only
    cases inTurn rs w.result with
    | none => rfl
    | some w' => rfl

omit [Scalar α] in
/-- The first rule that applies decides. -/
theorem left_first_cons_of_none {r : Rule α} (rs : List (Rule α)) {t : Tree α} (h : r t = none) :
    (first (r :: rs)).left t = (first rs).left t := by
  rw [left, left, first, h, Option.none_or]

omit [Scalar α] in
/-- The first of some rules is the one that applies, so the others are not asked. -/
theorem left_first_named {step : Step} {f : Tree α → Option (Tree α)} (rs : List (Rule α))
    {t t' : Tree α} (h : f t = some t') : (first (named step f :: rs)).left t = t' := by
  have hnamed : named step f t = some ⟨t', [step]⟩ := by rw [named, h, Option.map_some]
  rw [left, first, hnamed, Option.some_or]

end Rule

namespace Simplify

/-- The operator on some operands, or what it is spliced up to. -/
def spliced (op : NaryOp) : List (Tree α) → Tree α
  | [] => .num (neutral op)
  | [t] => t
  | ts => .node (.nary op) ts

/-- Splicing up leaves operators with two operands or more. -/
theorem spliceUp_left (op : NaryOp) (ts : List (Tree α)) :
    (Rule.named .spliceUp spliceUp).left (.node (.nary op) ts) = spliced op ts := by
  match ts with
  | [] => exact Rule.left_named rfl
  | [t] => exact Rule.left_named rfl
  | t :: u :: ts => exact Rule.left_of_eq_none rfl

/-- Neutral operands are left out, and where there are none the node stays as it is. -/
theorem removeNeutral_left (op : NaryOp) (ts : List (Tree α)) :
    (Rule.named .removeNeutral removeNeutral).left (.node (.nary op) ts) =
      .node (.nary op) (keptOperands op ts) := by
  by_cases hless : (keptOperands op ts).length < ts.length
  · exact Rule.left_named (if_pos hless)
  · have hall : keptOperands op ts = ts :=
      (keptOperands_sublist op ts).eq_of_length_le (Nat.le_of_not_lt hless)
    rw [hall]
    exact Rule.left_of_eq_none (Rule.named_eq_none.2 (if_neg hless))

/-- Neutral operands are left out first, and what remains is spliced up. -/
theorem identities_left (op : NaryOp) (ts : List (Tree α)) :
    identities.left (.node (.nary op) ts) = spliced op (keptOperands op ts) := by
  rw [identities, Rule.left_inTurn_cons, removeNeutral_left, Rule.left_inTurn_cons, spliceUp_left]
  rfl

/-- With a variable in it a tree is not evaluated. -/
theorem named_evaluate {t : Tree α} {x : String} (h : x ∈ t.leafNames) :
    (Rule.named .evaluate evaluate).left t = t :=
  Rule.left_of_eq_none (Rule.named_eq_none.2 (evaluate_eq_none h))

/-! ## Passes -/

/-- Rules in turn take one tree to another and make no inexact comparison. -/
inductive Turns : List (Rule α × Tests α) → Tree α → Tree α → Prop
  | done (t : Tree α) : Turns [] t t
  | next {r : Rule α × Tests α} {rs : List (Rule α × Tests α)} {s t u : Tree α} :
      r.1.left s = t → (∀ c ∈ r.2 s, c.Exact) → Turns rs t u → Turns (r :: rs) s u

/-- The passes at a root take one tree to another and make no inexact comparison. -/
structure Reduces (s t : Tree α) : Prop where
  result : (Rule.exhaust pass pass_shrinks s).result = t
  exact : ∀ c ∈ Rule.exhaustTests pass pass_shrinks (Rule.inTurnTests passParts) s, c.Exact

variable {rs : List (Rule α × Tests α)} {s t u : Tree α}

theorem Turns.left (h : Turns rs s t) : (Rule.inTurn (rs.map Prod.fst)).left s = t := by
  induction h with
  | done t => rfl
  | next hleft _ _ ih => rw [List.map_cons, Rule.left_inTurn_cons, hleft, ih]

/-- None of the comparisons on the way is inexact. -/
theorem Turns.exact (h : Turns rs s t) : ∀ c ∈ Rule.inTurnTests rs s, c.Exact := by
  induction h with
  | done t => exact List.forall_mem_nil _
  | next hleft hexact _ ih =>
    subst hleft
    exact List.forall_mem_append.2 ⟨hexact, ih⟩

theorem Turns.of_none (h : ∀ r ∈ rs, r.1 t = none) (hexact : ∀ r ∈ rs, ∀ c ∈ r.2 t, c.Exact) :
    Turns rs t t := by
  induction rs with
  | nil => exact .done t
  | cons r rs ih =>
    obtain ⟨hr, hrs⟩ := List.forall_mem_cons.1 h
    obtain ⟨hr', hrs'⟩ := List.forall_mem_cons.1 hexact
    exact .next (Rule.left_of_eq_none hr) hr' (ih hrs hrs')

/-- One pass, then the others. -/
theorem Reduces.pass (h : Turns passParts s t) (hlater : Reduces t u) : Reduces s u := by
  have hleft : Simplify.pass.left s = t := h.left
  cases hpass : Simplify.pass s with
  | none =>
    rw [Rule.left_of_eq_none hpass] at hleft
    rwa [hleft]
  | some w =>
    rw [Rule.left_of_eq_some hpass] at hleft
    refine ⟨?_, ?_⟩
    · rw [Rule.exhaust_of_eq_some hpass, hleft, hlater.result]
    · rw [Rule.exhaustTests_of_eq_some hpass, hleft]
      exact List.forall_mem_append.2 ⟨h.exact, hlater.exact⟩

/-- A pass that leaves the tree as it is does not apply. -/
theorem Turns.pass_eq_none (h : Turns passParts t t) : Simplify.pass t = none := by
  by_contra hsome
  obtain ⟨w, hw⟩ := Option.ne_none_iff_exists'.1 hsome
  have hsame : w.result = t := (Rule.left_of_eq_some hw).symm.trans h.left
  have hlighter := (pass_shrinks hw).2
  rw [hsame] at hlighter
  exact lt_irrefl _ hlighter

/-- A pass that changes nothing is the last. -/
theorem Reduces.last (h : Turns passParts t t) : Reduces t t where
  result := by rw [Rule.exhaust_of_eq_none h.pass_eq_none]
  exact := by
    rw [Rule.exhaustTests_of_eq_none h.pass_eq_none]
    exact h.exact

/-- No rule does anything with a leaf. -/
theorem turns_leaf (ht : ∀ op ts, t ≠ .node op ts) (hrs : ∀ r ∈ rs, r ∈ passParts) :
    Turns rs t t := by
  have hparts : ∀ r ∈ passParts, r.1 t = none ∧ r.2 t = [] := by
    simp only [passParts, List.forall_mem_cons]
    cases t with
    | num a | var x =>
      exact ⟨⟨rfl, rfl⟩, ⟨rfl, rfl⟩, ⟨rfl, rfl⟩, ⟨rfl, rfl⟩, ⟨rfl, rfl⟩, ⟨rfl, rfl⟩,
        List.forall_mem_nil _⟩
    | node op ts => exact absurd rfl (ht op ts)
  refine .of_none (fun r hr => (hparts r (hrs r hr)).1) fun r hr => ?_
  rw [(hparts r (hrs r hr)).2]
  exact List.forall_mem_nil _

/-- The comparisons of the first rule that applies are among those of all. -/
theorem exact_firstTests (h : ∀ r ∈ rs, ∀ c ∈ r.2 t, c.Exact) :
    ∀ c ∈ Rule.firstTests rs t, c.Exact := by
  induction rs with
  | nil => exact List.forall_mem_nil _
  | cons r rs ih =>
    obtain ⟨hr, hrs⟩ := List.forall_mem_cons.1 h
    refine List.forall_mem_append.2 ⟨hr, ?_⟩
    split
    · exact List.forall_mem_nil _
    · exact ih hrs

/-! ## Operands that are not near zero or one -/

/-- The tree is no constant near zero or one. -/
def Ordinary (t : Tree α) : Prop :=
  t.isNear (Scalar.ofNat 0) = false ∧ t.isNear (Scalar.ofNat 1) = false

theorem ordinary_var (x : String) : Ordinary (.var x : Tree α) := ⟨rfl, rfl⟩

theorem ordinary_node (op : Operator) (ts : List (Tree α)) : Ordinary (.node op ts) := ⟨rfl, rfl⟩

/-- The neutral numbers are zero and one. -/
theorem Ordinary.not_neutral (h : Ordinary t) (op : NaryOp) : t.isNear (neutral op) = false := by
  cases op with
  | add | sub => exact h.1
  | mul | div | pow => exact h.2

/-- A comparison of numbers that are not near is exact. -/
theorem exact_of_not_near {a b : α} (h : Scalar.near a b = false) : (⟨a, b⟩ : Test α).Exact :=
  fun hnear => absurd hnear (Bool.eq_false_iff.1 h)

theorem exact_testsAgainst {a : α} (h : t.isNear a = false) :
    ∀ c ∈ testsAgainst a t, c.Exact := by
  intro c hc
  cases t with
  | num b =>
    obtain rfl := List.mem_singleton.1 hc
    exact exact_of_not_near h
  | var x | node op ts => cases hc

section

variable {op : NaryOp} {ts : List (Tree α)} (h : ∀ t ∈ ts, Ordinary t)

include h

/-- Two or more ordinary operands are all kept. -/
theorem identities_of_ordinary (hlength : 2 ≤ ts.length) :
    identities.left (.node (.nary op) ts) = .node (.nary op) ts := by
  have hall : ∀ {us : List (Tree α)}, (∀ t ∈ us, Ordinary t) → withoutNeutral op us = us :=
    fun hus => List.filter_eq_self.2 fun t ht => by rw [(hus t ht).not_neutral]; rfl
  obtain ⟨t, u, us, rfl⟩ : ∃ t u us, ts = t :: u :: us := by
    match ts, hlength with
    | t :: u :: us, _ => exact ⟨t, u, us, rfl⟩
  have hkept : keptOperands op (t :: u :: us) = t :: u :: us := by
    unfold keptOperands
    split
    · exact hall h
    · exact congrArg (t :: ·) (hall (List.forall_mem_cons.1 h).2)
  rw [identities_left, hkept]
  rfl

/-- Ordinary operands are compared exactly with the neutral number. -/
theorem exact_removeNeutralTests : ∀ c ∈ removeNeutralTests (.node (.nary op) ts), c.Exact := by
  intro c hc
  obtain ⟨t, ht, hc⟩ := List.mem_flatMap.1 hc
  have hmem : t ∈ ts := by
    split at ht
    · exact ht
    · exact List.mem_of_mem_tail ht
  exact exact_testsAgainst ((h t hmem).not_neutral op) c hc

theorem exact_anyZeroTests : ∀ c ∈ anyZeroTests ts, c.Exact := by
  induction ts with
  | nil => exact List.forall_mem_nil _
  | cons t ts ih =>
    obtain ⟨ht, hts⟩ := List.forall_mem_cons.1 h
    rw [anyZeroTests, isZero, ht.1]
    exact List.forall_mem_append.2 ⟨exact_testsAgainst ht.1, ih hts⟩

/-- No factor, exponent, base or dividend is near zero. -/
theorem shortCircuitParts_of_ordinary : ∀ r ∈ shortCircuitParts,
    r.1 (.node (.nary op) ts) = none ∧ ∀ c ∈ r.2 (.node (.nary op) ts), c.Exact := by
  have hany : ∀ {us : List (Tree α)} (a : Tree α), (∀ t ∈ us, Ordinary t) →
      (if us.any isZero then some a else none) = none := fun a hus =>
    if_neg (Bool.eq_false_iff.1 (List.any_eq_false.2 fun t ht => Bool.eq_false_iff.1 (hus t ht).1))
  have hone : ∀ {t : Tree α} (a : Tree α), Ordinary t →
      (if isZero t then some a else none) = none :=
    fun a ht => if_neg (Bool.eq_false_iff.1 ht.1)
  simp only [shortCircuitParts, List.forall_mem_cons, Rule.named_eq_none]
  -- the rules compare operands with zero, and ordinary operands are not near it
  cases op with
  | add | sub =>
    exact ⟨⟨rfl, List.forall_mem_nil _⟩, ⟨rfl, List.forall_mem_nil _⟩, ⟨rfl, List.forall_mem_nil _⟩,
      ⟨rfl, List.forall_mem_nil _⟩, List.forall_mem_nil _⟩
  | mul =>
    exact ⟨⟨rfl, List.forall_mem_nil _⟩, ⟨rfl, List.forall_mem_nil _⟩, ⟨rfl, List.forall_mem_nil _⟩,
      ⟨hany _ h, exact_anyZeroTests h⟩, List.forall_mem_nil _⟩
  | div =>
    cases ts with
    | nil =>
      exact ⟨⟨rfl, List.forall_mem_nil _⟩, ⟨rfl, List.forall_mem_nil _⟩,
        ⟨rfl, List.forall_mem_nil _⟩, ⟨rfl, List.forall_mem_nil _⟩, List.forall_mem_nil _⟩
    | cons t us =>
      have ht : Ordinary t := h t (List.mem_cons_self ..)
      exact ⟨⟨rfl, List.forall_mem_nil _⟩, ⟨rfl, List.forall_mem_nil _⟩,
        ⟨hone _ ht, exact_testsAgainst ht.1⟩, ⟨rfl, List.forall_mem_nil _⟩, List.forall_mem_nil _⟩
  | pow =>
    cases ts with
    | nil =>
      exact ⟨⟨rfl, List.forall_mem_nil _⟩, ⟨rfl, List.forall_mem_nil _⟩,
        ⟨rfl, List.forall_mem_nil _⟩, ⟨rfl, List.forall_mem_nil _⟩, List.forall_mem_nil _⟩
    | cons t us =>
      obtain ⟨ht, hus⟩ := List.forall_mem_cons.1 h
      exact ⟨⟨hany _ hus, exact_anyZeroTests hus⟩, ⟨hone _ ht, exact_testsAgainst ht.1⟩,
        ⟨rfl, List.forall_mem_nil _⟩, ⟨rfl, List.forall_mem_nil _⟩, List.forall_mem_nil _⟩

/-- The first two groups of rules leave ordinary operands alone. -/
theorem turns_of_ordinary (hlength : 2 ≤ ts.length)
    (hlater : Turns (passParts.drop 2) (.node (.nary op) ts) u) :
    Turns passParts (.node (.nary op) ts) u := by
  have hshort : ∀ r ∈ shortCircuitParts, r.1 (.node (.nary op) ts) = none ∧
      ∀ c ∈ r.2 (.node (.nary op) ts), c.Exact := shortCircuitParts_of_ordinary h
  have hnone : shortCircuits (.node (.nary op) ts) = none := by
    rw [shortCircuits_eq_first, Rule.first_eq_none]
    exact List.forall_mem_map.2 fun r hr => (hshort r hr).1
  exact .next (identities_of_ordinary h hlength) (exact_removeNeutralTests h)
    (.next (Rule.left_of_eq_none hnone) (exact_firstTests fun r hr => (hshort r hr).2) hlater)

end

/-- The operator goes if one operand is kept, which the first group of rules leaves as it is. -/
theorem turns_spliced {op : NaryOp} {ts : List (Tree α)} (hkept : keptOperands op ts = [t])
    (hexact : ∀ c ∈ removeNeutralTests (.node (.nary op) ts), c.Exact)
    (hlater : Turns passParts t t) : Turns passParts (.node (.nary op) ts) t := by
  have hidentities : identities t = none :=
    Rule.inTurn_eq_none.1 hlater.pass_eq_none identities (List.mem_cons_self ..)
  cases hlater with
  | next hleft _ hothers =>
    rw [Rule.left_of_eq_none hidentities] at hleft
    subst hleft
    exact .next (by rw [identities_left, hkept]; rfl) hexact hothers

/-- Products, quotients and powers are not compared with anything after the first two groups. -/
theorem turns_of_factors {op : NaryOp} {ts us vs : List (Tree α)} {x : String} {w : Tree α}
    (hop : op ≠ .add ∧ op ≠ .sub) (hx : x ∈ (Tree.node (.nary op) ts).leafNames)
    (hflatten : (Rule.named .flatten flatten).left (.node (.nary op) ts) = .node (.nary op) us)
    (hfold : (Rule.named .foldConstants foldConstants).left (.node (.nary op) us) =
      .node (.nary op) vs)
    (hfactors : (Rule.named .combineLikeFactors combineFactors).left (.node (.nary op) vs) = w) :
    Turns (passParts.drop 2) (.node (.nary op) ts) w := by
  -- the rules for sums and differences come first, and do not apply
  have hcollections : collections.left (.node (.nary op) vs) = w := by
    have hterms : Rule.named .combineLikeTerms combineTerms (.node (.nary op) vs) = none := by
      simp [Rule.named, combineTerms, hop.1]
    have hdifference : Rule.named .combineLikeTerms subtractTerms (.node (.nary op) vs) = none := by
      simp [Rule.named, subtractTerms, hop.2]
    rw [← hfactors, collections, Rule.left_first_cons_of_none _ hterms,
      Rule.left_first_cons_of_none _ hdifference, Rule.left, Rule.first, Rule.first, Option.or_none,
      Rule.left]
  refine .next (named_evaluate hx) (List.forall_mem_nil _) ?_
  refine .next hflatten (List.forall_mem_nil _) (.next hfold (List.forall_mem_nil _) ?_)
  refine .next hcollections (exact_firstTests ?_) (.done _)
  simp only [collectionParts, List.forall_mem_cons]
  cases op with
  | add => exact absurd rfl hop.1
  | sub => exact absurd rfl hop.2
  | mul | div | pow =>
    exact ⟨List.forall_mem_nil _, List.forall_mem_nil _, List.forall_mem_nil _,
      List.forall_mem_nil _⟩

/-! ## Some runs -/

section

variable {x : String} {a b c : α}

/-- A variable with a coefficient stays. -/
theorem turns_term (hc : Ordinary (.num c)) :
    Turns passParts (.node (.nary .mul) [.var x, .num c])
      (.node (.nary .mul) [.var x, .num c]) := by
  have hfactors : combineFactors (.node (.nary .mul) [.var x, .num c]) = none := by
    simp [combineFactors, fewerOperands, mergeFactors, isVariable]
  refine turns_of_ordinary (by simp [hc, ordinary_var]) (by simp) ?_
  exact turns_of_factors (x := x) (by simp) (by simp [Tree.leafNames]) (Rule.left_of_eq_none rfl)
    (Rule.left_of_eq_none rfl) (Rule.left_of_eq_none (Rule.named_eq_none.2 hfactors))

/-- So does a power of a variable. -/
theorem turns_power (hc : Ordinary (.num c)) :
    Turns passParts (.node (.nary .pow) [.var x, .num c])
      (.node (.nary .pow) [.var x, .num c]) := by
  refine turns_of_ordinary (by simp [hc, ordinary_var]) (by simp) ?_
  exact turns_of_factors (x := x) (by simp) (by simp [Tree.leafNames]) (Rule.left_of_eq_none rfl)
    (Rule.left_of_eq_none rfl) (Rule.left_of_eq_none rfl)

/-- `(x ^ a) ^ b = x ^ (a * b)`, whatever the sign of `x` is. -/
theorem reduces_power_power (h : Scalar.mul a b = c) (hb : Ordinary (.num b))
    (hc : Ordinary (.num c)) :
    Reduces (.node (.nary .pow) [.node (.nary .pow) [.var x, .num a], .num b])
      (.node (.nary .pow) [.var x, .num c]) := by
  subst h
  refine .pass (turns_of_ordinary ?_ (by simp) ?_) (.last (turns_power hc))
  · simp [hb, ordinary_node]
  · exact turns_of_factors (x := x) (by simp) (by simp [Tree.leafNames]) (Rule.left_named rfl)
      (Rule.left_named rfl) (Rule.left_of_eq_none rfl)

/-- `a * x ^ d * (x * b) = (a * b) * x ^ d * x`. -/
theorem reduces_factors (h : Scalar.mul a b = c) (ha : Ordinary (.num a))
    (hc : Ordinary (.num c)) (d : α) :
    Reduces (.node (.nary .mul) [.num a, .node (.nary .pow) [.var x, .num d],
        .node (.nary .mul) [.var x, .num b]])
      (.node (.nary .mul) [.num c, .node (.nary .pow) [.var x, .num d], .var x]) := by
  subst h
  have hfactors : Rule.named .combineLikeFactors combineFactors (.node (.nary .mul)
      [.num (Scalar.mul a b), .node (.nary .pow) [.var x, .num d], .var x]) = none := by
    simp [Rule.named, combineFactors, fewerOperands, mergeFactors]
  refine .pass (turns_of_ordinary ?_ (by simp) ?_) (.last (turns_of_ordinary ?_ (by simp) ?_))
  · simp [ha, ordinary_node]
  · exact turns_of_factors (x := x) (by simp) (by simp [Tree.leafNames]) (Rule.left_named rfl)
      (Rule.left_named rfl) (Rule.left_of_eq_none hfactors)
  · simp [hc, ordinary_var, ordinary_node]
  · exact turns_of_factors (x := x) (by simp) (by simp [Tree.leafNames])
      (Rule.left_of_eq_none rfl) (Rule.left_of_eq_none rfl) (Rule.left_of_eq_none hfactors)

/-- `x + x = x * 2`. -/
theorem reduces_twice (h : Scalar.add (Scalar.ofNat 1) (Scalar.ofNat 1) = c)
    (hc : Ordinary (.num c)) :
    Reduces (.node (.nary .add) [.var x, .var x]) (.node (.nary .mul) [.var x, .num c]) := by
  have hzero : Scalar.isZero c = false := hc.1
  have hone : Scalar.isOne c = false := hc.2
  have hterms : combineTerms (.node (.nary .add) [.var x, .var x]) =
      some (.node (.nary .add) [.node (.nary .mul) [.var x, .num c]]) := by
    simp [combineTerms, fewerOperands, mergeTerms, linearTerm?, coefficients, coefficient?,
      withoutTerms, normalTerm, h, hzero, hone]
  have htests : ∀ d ∈ mergeTermsTests [(.var x : Tree α), .var x], d.Exact := by
    have hlist : mergeTermsTests [.var x, .var x] =
        [⟨c, Scalar.ofNat 0⟩, ⟨c, Scalar.ofNat 1⟩] := by
      simp [mergeTermsTests, linearTerm?, coefficients, coefficient?, withoutTerms,
        normalTermTests, h, hzero]
    rw [hlist]
    exact List.forall_mem_cons.2 ⟨exact_of_not_near hzero,
      List.forall_mem_singleton.2 (exact_of_not_near hone)⟩
  -- the terms are merged in the first pass, and the sum of one term goes in the second
  have hmerge : Turns passParts (.node (.nary .add) [.var x, .var x])
      (.node (.nary .add) [.node (.nary .mul) [.var x, .num c]]) := by
    refine turns_of_ordinary (by simp [ordinary_var]) (by simp) ?_
    refine .next (named_evaluate (x := x) (by simp [Tree.leafNames])) (List.forall_mem_nil _) ?_
    refine .next (Rule.left_of_eq_none rfl) (List.forall_mem_nil _)
      (.next (Rule.left_of_eq_none rfl) (List.forall_mem_nil _) ?_)
    refine .next (Rule.left_first_named _ hterms) (exact_firstTests ?_) (.done _)
    simp only [collectionParts, List.forall_mem_cons]
    exact ⟨htests, List.forall_mem_nil _, List.forall_mem_nil _, List.forall_mem_nil _⟩
  exact .pass hmerge (.pass (turns_spliced rfl (List.forall_mem_nil _) (turns_term hc))
    (.last (turns_term hc)))

end

section

variable [LawfulScalar α] {x : String}

/-- Whole numbers from two on are near neither zero nor one. -/
theorem ordinary_ofNat (n : ℕ) : Ordinary (.num (Scalar.ofNat (n + 2)) : Tree α) := by
  constructor
  · refine Bool.eq_false_iff.2 fun h => ?_
    cases (LawfulScalar.near_ofNat_zero_iff (n + 2)).1 h
  · refine Bool.eq_false_iff.2 fun h => ?_
    cases (LawfulScalar.near_ofNat_one_iff (n + 2)).1 h

/-- `x * x = x ^ 2`. -/
theorem reduces_square :
    Reduces (.node (.nary .mul) [.var x, .var x] : Tree α)
      (.node (.nary .pow) [.var x, .num (Scalar.ofNat 2)]) := by
  have hfactors : combineFactors (.node (.nary .mul) [.var x, .var x] : Tree α) =
      some (.node (.nary .mul) [.node (.nary .pow) [.var x, .num (Scalar.ofNat 2)]]) := by
    simp [combineFactors, fewerOperands, mergeFactors, isVariable, withoutVariable]
  have hpower : Ordinary (.num (Scalar.ofNat 2) : Tree α) := ordinary_ofNat 0
  have hmerge : Turns passParts (.node (.nary .mul) [.var x, .var x] : Tree α)
      (.node (.nary .mul) [.node (.nary .pow) [.var x, .num (Scalar.ofNat 2)]]) := by
    refine turns_of_ordinary (by simp [ordinary_var]) (by simp) ?_
    exact turns_of_factors (x := x) (by simp) (by simp [Tree.leafNames])
      (Rule.left_of_eq_none rfl) (Rule.left_of_eq_none rfl) (Rule.left_named hfactors)
  exact .pass hmerge (.pass (turns_spliced rfl (List.forall_mem_nil _) (turns_power hpower))
    (.last (turns_power hpower)))

/-- `1 * x = x` and `x * 1 = x`. -/
theorem reduces_times_one {ts : List (Tree α)}
    (hts : ts = [.num (Scalar.ofNat 1), .var x] ∨ ts = [.var x, .num (Scalar.ofNat 1)]) :
    Reduces (.node (.nary .mul) ts) (.var x) := by
  have hleaf : Turns passParts (.var x : Tree α) (.var x) :=
    turns_leaf (fun _ _ h => by cases h) fun _ h => h
  have hone : (Tree.num (Scalar.ofNat 1) : Tree α).isNear (neutral .mul) = true :=
    (LawfulScalar.near_ofNat_one_iff 1).2 rfl
  have hvar : (Tree.var x : Tree α).isNear (neutral .mul) = false := rfl
  refine .pass (turns_spliced ?_ ?_ hleaf) (.last hleaf)
  · rcases hts with rfl | rfl <;>
      simp [keptOperands, withoutNeutral, NaryOp.commutes, hone, hvar]
  · intro c hc
    have hconstant : c = ⟨Scalar.ofNat 1, neutral .mul⟩ := by
      rcases hts with rfl | rfl <;>
        simpa [removeNeutralTests, NaryOp.commutes, testsAgainst] using hc
    rw [hconstant]
    exact fun _ => rfl

/-- `a - 1` is evaluated. -/
theorem turns_sub_one (a : α) :
    Turns passParts (.node (.nary .sub) [.num a, .num (Scalar.ofNat 1)])
      (.num (Scalar.sub a (Scalar.ofNat 1))) := by
  -- one is not the neutral number of a difference, so both operands are kept
  have hone : (Tree.num (Scalar.ofNat 1) : Tree α).isNear (neutral .sub) = false :=
    Bool.eq_false_iff.2 fun hnear => by cases (LawfulScalar.near_ofNat_zero_iff 1).1 hnear
  have hkept : keptOperands .sub [.num a, .num (Scalar.ofNat 1)] =
      [.num a, .num (Scalar.ofNat 1)] :=
    congrArg (Tree.num _ :: ·) (List.filter_cons_of_pos (by rw [hone]; rfl))
  have hvalue : evaluate (.node (.nary .sub) [.num a, .num (Scalar.ofNat 1)]) =
      some (.num (Scalar.sub a (Scalar.ofNat 1))) := by
    simp [evaluate, Operator.isArithmetic, Tree.toExpr, Expr.ofNode, Expr.eval, bind, Except.bind,
      pure, Except.pure, NaryOp.apply]
  have hlater : Turns (passParts.drop 3) (.num (Scalar.sub a (Scalar.ofNat 1)))
      (.num (Scalar.sub a (Scalar.ofNat 1))) :=
    turns_leaf (fun _ _ h => by cases h) fun _ => List.mem_of_mem_drop
  refine .next (by rw [identities_left, hkept]; rfl) ?_ (.next (Rule.left_of_eq_none rfl)
    (exact_firstTests ?_) (.next (Rule.left_named hvalue) (List.forall_mem_nil _) hlater))
  · exact List.forall_mem_append.2 ⟨exact_testsAgainst hone, List.forall_mem_nil _⟩
  · simp only [shortCircuitParts, List.forall_mem_cons]
    exact ⟨List.forall_mem_nil _, List.forall_mem_nil _, List.forall_mem_nil _,
      List.forall_mem_nil _, List.forall_mem_nil _⟩

/-- One subtracted from a constant is evaluated. -/
theorem reduces_sub_one (a : α) :
    Reduces (.node (.nary .sub) [.num a, .num (Scalar.ofNat 1)])
      (.num (Scalar.sub a (Scalar.ofNat 1))) :=
  .pass (turns_sub_one a) (.last (turns_leaf (fun _ _ h => by cases h) fun _ h => h))

end

end Simplify

/-! ## Whole expressions -/

namespace Expr

open Simplify

/-- The normal form of an expression, reached without an inexact comparison. -/
def NormalizesTo (e : Expr α) (t : Tree α) : Prop := e.normalForm = t ∧ e.TestsExact

theorem normalizesTo_num (a : α) : (num a).NormalizesTo (.num a) := by
  refine ⟨normalForm_num a, ?_⟩
  rw [TestsExact, toTree, Tree.simplifyTests]
  · exact List.forall_mem_nil _
  · exact fun _ _ h => by cases h

theorem normalizesTo_var (x : String) : (var x : Expr α).NormalizesTo (.var x) := by
  refine ⟨normalForm_var x, ?_⟩
  rw [TestsExact, toTree, Tree.simplifyTests]
  · exact List.forall_mem_nil _
  · exact fun _ _ h => by cases h

/-- The operands, then the root. -/
theorem normalizesTo_nary {op : NaryOp} {e : Expr α} {es : List (Expr α)} {ts : List (Tree α)}
    {t : Tree α} (hes : List.Forall₂ NormalizesTo (e :: es) ts)
    (h : Reduces (.node (.nary op) ts) t) : (nary op e es).NormalizesTo t := by
  have hoperands : ∀ {ds : List (Expr α)} {us : List (Tree α)}, List.Forall₂ NormalizesTo ds us →
      ds.map normalForm = us ∧ ∀ d ∈ ds, d.TestsExact := by
    intro ds us hds
    induction hds with
    | nil => exact ⟨rfl, List.forall_mem_nil _⟩
    | cons hd _ ih =>
      exact ⟨List.cons_eq_cons.2 ⟨hd.1, ih.1⟩, List.forall_mem_cons.2 ⟨hd.2, ih.2⟩⟩
  obtain ⟨hnormal, hexact⟩ := hoperands hes
  refine ⟨?_, testsExact_nary.2 ⟨hexact, ?_⟩⟩
  · rw [normalForm_nary, hnormal, root_of_isArithmetic rfl, h.result]
  · rw [hnormal, rootTests_of_isArithmetic rfl]
    exact h.exact

end Expr

end Fluxion

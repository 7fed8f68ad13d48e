import Fluxion.Proofs.Scalar.Machine
import Fluxion.Proofs.Simplify.Collapse

/-!
# Simplification evaluates

An expression without variables becomes a constant, and not by evaluation: operands near a neutral
number are left out and operands near zero decide before anything is computed, at every level. The
laws of `RoundedScalar` are what this needs to end at the value. With them an operator on numbers
becomes its value (`Simplify.same_collapse`) if the value is finite and comparisons take no number
for another, and by induction so does an expression (`Expr.normalForm_constant`). Zeros of different
signs are one here: a sum that keeps `-0` may lose the sign.

Both conditions are needed. A quotient `0 / 0` becomes zero, and a number within the tolerance of
zero makes zero of a product that need not be near it.
-/

namespace Fluxion

variable {α : Type} [Scalar α]

namespace Simplify

open RoundedScalar

variable [RoundedScalar α] {op : NaryOp} {as bs : List α}

/-! ## An operator on constants -/

/-- Operands that are the same have the same finite value, powers apart. -/
theorem onValues_congr (hop : op ≠ .pow)
    (hsame : List.Forall₂ (fun b a => Scalar.same b a = true) bs as) (has : ∀ a ∈ as, IsFinite a)
    (h : IsFinite ((Operator.nary op).onValues as)) :
    Scalar.same ((Operator.nary op).onValues bs) ((Operator.nary op).onValues as) = true := by
  cases hsame with
  | nil => exact LawfulScalar.same_refl _
  | cons hb hbs =>
    obtain ⟨-, has⟩ := List.forall_mem_cons.1 has
    have hflip := List.Forall₂.flip (hbs.imp fun _ _ => same_symm)
    exact same_symm (foldl_congr hop has (same_symm hb) hflip h)

omit [RoundedScalar α] in
/-- What does not count is the neutral number, if that comparison was sound. -/
theorem same_of_not_counts {b : α} (hsound : (⟨b, neutral op⟩ : Test α).Sound)
    (h : counts op b = false) : Scalar.same b (Scalar.ofNat op.neutral) = true :=
  hsound (by simpa [counts] using h)

/-- Leaving out operands that are neutral keeps a finite value, powers apart. -/
theorem onValues_kept (hop : op ≠ .pow) (hbs : ∀ b ∈ bs, IsFinite b)
    (hsound : ∀ b ∈ if op.commutes then bs else bs.tail, (⟨b, neutral op⟩ : Test α).Sound)
    (h : IsFinite ((Operator.nary op).onValues bs)) :
    Scalar.same ((Operator.nary op).onValues (kept op bs)) ((Operator.nary op).onValues bs) =
      true := by
  unfold kept
  split
  · next hcommutes =>
    rw [if_pos hcommutes] at hsound
    exact onValues_filter hcommutes hbs (fun b hb => same_of_not_counts (hsound b hb)) h
  · next hcommutes =>
    rw [if_neg hcommutes] at hsound
    cases bs with
    | nil => exact LawfulScalar.same_refl _
    | cons b bs =>
      obtain ⟨-, hbs⟩ := List.forall_mem_cons.1 hbs
      exact foldl_filter hop hbs (fun c hc => same_of_not_counts (hsound c hc)) h

/-- A zero that decides makes a finite value what it says, powers apart. -/
theorem Decisive.onValues {cs : List α} {a : α} (h : Decisive op cs a) (hop : op ≠ .pow)
    (hcs : ∀ c ∈ cs, IsFinite c) (hfinite : IsFinite ((Operator.nary op).onValues cs)) :
    Scalar.same a ((Operator.nary op).onValues cs) = true := by
  cases op with
  | add | sub => exact h.elim
  | pow => exact absurd rfl hop
  | mul =>
    -- a zero factor makes the product zero only up to the sign
    obtain ⟨rfl, z, hz, hzero⟩ := h
    cases cs with
    | nil => cases hz
    | cons c cs =>
      obtain ⟨-, hcs⟩ := List.forall_mem_cons.1 hcs
      refine same_symm (foldl_mul_of_zero hcs hfinite ?_)
      rcases List.mem_cons.1 hz with rfl | hz
      · exact .inl hzero
      · exact .inr ⟨z, hz, hzero⟩
  | div =>
    cases cs with
    | nil => exact h.elim
    | cons c cs =>
      obtain ⟨rfl, hzero⟩ := h
      obtain ⟨-, hcs⟩ := List.forall_mem_cons.1 hcs
      exact same_symm (foldl_div_of_zero hcs hfinite hzero)

omit [RoundedScalar α] in
theorem mem_of_mem_kept {b : α} (h : b ∈ kept op bs) : b ∈ bs := by
  unfold kept at h
  split at h
  · exact (List.mem_filter.1 h).1
  · cases bs with
    | nil => cases h
    | cons c bs =>
      rcases List.mem_cons.1 h with rfl | h
      · exact List.mem_cons_self ..
      · exact List.mem_cons_of_mem _ (List.mem_filter.1 h).1

/-- What numbers become is their value, if that is finite and no comparison takes one number for
another; powers apart. -/
theorem collapse_of_ne_pow (hop : op ≠ .pow) (hbs : ∀ b ∈ bs, IsFinite b)
    (hsound : ∀ c ∈ rootTests (.node (.nary op) (bs.map .num)), c.Sound)
    (h : IsFinite ((Operator.nary op).onValues bs)) :
    Scalar.same (collapse op bs) ((Operator.nary op).onValues bs) = true := by
  have hkept := onValues_kept hop hbs (sound_neutral hsound) h
  refine same_trans ?_ hkept
  unfold collapse
  have hcs : ∀ c ∈ kept op bs, IsFinite c := fun c hc => hbs c (mem_of_mem_kept hc)
  have hfinite := isFinite_of_same (same_symm hkept) h
  match hcases : kept op bs with
  | [] => exact LawfulScalar.same_refl _
  | [c] => exact LawfulScalar.same_refl c
  | b :: c :: cs =>
    rw [hcases] at hcs hfinite
    dsimp only
    cases hdecided : decided? op (b :: c :: cs) with
    | none => exact LawfulScalar.same_refl _
    | some a => exact (decisive_of_rootTests hsound hcases hdecided).onValues hop hcs hfinite

/-- Numbers that are the same as finite ones are finite. -/
theorem forall_isFinite_of_forall₂_same
    (hsame : List.Forall₂ (fun b a => Scalar.same b a = true) bs as) (has : ∀ a ∈ as, IsFinite a) :
    ∀ b ∈ bs, IsFinite b := by
  induction hsame with
  | nil => exact List.forall_mem_nil _
  | cons hb _ ih =>
    obtain ⟨ha, has⟩ := List.forall_mem_cons.1 has
    exact List.forall_mem_cons.2 ⟨isFinite_of_same (same_symm hb) ha, ih has⟩

/-- Exponents that are not zero are the same only if they are equal. -/
theorem eq_of_forall₂_same (hsame : List.Forall₂ (fun b a => Scalar.same b a = true) bs as)
    (hne : ∀ b ∈ bs, Scalar.same b (Scalar.ofNat 0) = false) : bs = as := by
  induction hsame with
  | nil => rfl
  | cons hb _ ih =>
    obtain ⟨hzero, hne⟩ := List.forall_mem_cons.1 hne
    rw [eq_of_same hb hzero, ih hne]

theorem exists_zero_of_forall₂_same
    (hsame : List.Forall₂ (fun b a => Scalar.same b a = true) bs as)
    (h : ∃ b ∈ bs, Scalar.same b (Scalar.ofNat 0) = true) :
    ∃ a ∈ as, Scalar.same a (Scalar.ofNat 0) = true := by
  obtain ⟨b, hb, hzero⟩ := h
  induction hsame with
  | nil => cases hb
  | @cons c a bs as hc _ ih =>
    rcases List.mem_cons.1 hb with rfl | hb
    · exact ⟨a, List.mem_cons_self .., same_trans (same_symm hc) hzero⟩
    · obtain ⟨a', ha', hzero'⟩ := ih hb
      exact ⟨a', List.mem_cons_of_mem _ ha', hzero'⟩

/-- An exponent zero is not left out, and makes one of the power. -/
theorem collapse_pow_of_zero {b : α} (h : ∃ e ∈ bs, Scalar.same e (Scalar.ofNat 0) = true) :
    collapse .pow (b :: bs) = Scalar.ofNat 1 := by
  obtain ⟨e, he, hzero⟩ := h
  obtain ⟨hnear, hone⟩ := LawfulScalar.near_of_same_zero e hzero
  have hcounts : counts .pow e = true := by
    show (!Scalar.near e (Scalar.ofNat 1)) = true
    rw [hone, Bool.not_false]
  have hmem : e ∈ bs.filter (counts .pow) := List.mem_filter.2 ⟨he, hcounts⟩
  obtain ⟨c, cs, hcs⟩ := List.exists_cons_of_ne_nil (List.ne_nil_of_mem hmem)
  have hany : (c :: cs).any Scalar.isZero = true := List.any_eq_true.2 ⟨e, hcs ▸ hmem, hnear⟩
  have hkept : kept .pow (b :: bs) = b :: c :: cs := congrArg (b :: ·) hcs
  rw [collapse, hkept]
  dsimp only
  rw [decided?, if_pos hany]
  rfl

omit [RoundedScalar α] in
/-- A zero that decides a power without an exponent zero is its base. -/
theorem Decisive.base {x b : α} {cs : List α} (h : Decisive .pow (b :: cs) x)
    (hne : ∀ e ∈ cs, Scalar.same e (Scalar.ofNat 0) = false) :
    x = Scalar.ofNat 0 ∧ Scalar.same b (Scalar.ofNat 0) = true := by
  rcases h with ⟨-, z, hz, hzero⟩ | ⟨hx, hbase, -⟩
  · rw [hne z hz] at hzero
    cases hzero
  · exact ⟨hx, hbase⟩

omit [RoundedScalar α] in
/-- Where nothing decides, the base is not zero. -/
theorem base_of_decided?_eq_none [LawfulScalar α] {b : α} {cs : List α}
    (h : decided? .pow (b :: cs) = none) : Scalar.same b (Scalar.ofNat 0) = false := by
  refine Bool.eq_false_iff.2 fun hsame => ?_
  have hzero : Scalar.isZero b = true := (LawfulScalar.near_of_same_zero b hsame).1
  rw [decided?, if_pos hzero] at h
  split at h <;> cases h

/-- Without an exponent zero a power of numbers becomes its value, also where the base is a zero of
another sign. -/
theorem collapse_pow_of_nonzero {a b : α} (hb : Scalar.same b a = true) (hbs : ∀ e ∈ bs, IsFinite e)
    (hne : ∀ e ∈ bs, Scalar.same e (Scalar.ofNat 0) = false)
    (hsound : ∀ c ∈ rootTests (.node (.nary .pow) ((b :: bs).map .num)), c.Sound)
    (h : IsFinite (bs.foldl Scalar.pow a)) :
    Scalar.same (collapse .pow (b :: bs)) (bs.foldl Scalar.pow a) = true := by
  have hkept : kept .pow (b :: bs) = b :: bs.filter (counts .pow) := rfl
  have hfilter : (bs.filter (counts .pow)).foldl Scalar.pow a = bs.foldl Scalar.pow a :=
    foldl_pow_filter fun e he hcounts => same_of_not_counts (sound_neutral hsound e he) hcounts
  rw [collapse, hkept]
  cases hcs : bs.filter (counts .pow) with
  | nil =>
    rw [hcs] at hfilter
    rw [← hfilter]
    exact hb
  | cons c cs =>
    have hmem : ∀ e ∈ c :: cs, e ∈ bs := fun e he => (List.mem_filter.1 (hcs ▸ he)).1
    dsimp only
    cases hdecided : decided? .pow (b :: c :: cs) with
    | some x =>
      -- a base that counts as zero decides, and its powers are zero as well or not finite
      obtain ⟨rfl, hbase⟩ := (decisive_of_rootTests hsound (hkept.trans (congrArg _ hcs))
        hdecided).base fun e he => hne e (hmem e he)
      have hextreme := foldl_pow_of_extreme (fun e he => ⟨hbs e he, hne e he⟩)
        (.inl (same_trans (same_symm hb) hbase))
      exact same_symm (hextreme.resolve_right (not_not_intro h))
    | none =>
      obtain rfl := eq_of_same hb (base_of_decided?_eq_none hdecided)
      rw [← hfilter, hcs]
      exact LawfulScalar.same_refl _

/-- A power of numbers becomes the value of one of the same numbers, if that is finite and no
comparison takes one number for another. -/
theorem collapse_pow {a b : α} (hb : Scalar.same b a = true)
    (hsame : List.Forall₂ (fun b a => Scalar.same b a = true) bs as) (has : ∀ a ∈ as, IsFinite a)
    (hsound : ∀ c ∈ rootTests (.node (.nary .pow) ((b :: bs).map .num)), c.Sound)
    (h : IsFinite (as.foldl Scalar.pow a)) :
    Scalar.same (collapse .pow (b :: bs)) (as.foldl Scalar.pow a) = true := by
  by_cases hzero : ∃ e ∈ bs, Scalar.same e (Scalar.ofNat 0) = true
  · rw [collapse_pow_of_zero hzero, foldl_pow_of_zero (exists_zero_of_forall₂_same hsame hzero)]
    exact LawfulScalar.same_refl _
  · have hne : ∀ e ∈ bs, Scalar.same e (Scalar.ofNat 0) = false :=
      fun e he => Bool.eq_false_iff.2 fun hsame => hzero ⟨e, he, hsame⟩
    obtain rfl := eq_of_forall₂_same hsame hne
    exact collapse_pow_of_nonzero hb has hne hsound h

/-- What the numbers become is the value of the same numbers, if they and their value are finite and
no comparison takes one number for another. -/
theorem same_collapse (hne : as ≠ [])
    (hsame : List.Forall₂ (fun b a => Scalar.same b a = true) bs as) (has : ∀ a ∈ as, IsFinite a)
    (hsound : ∀ c ∈ rootTests (.node (.nary op) (bs.map .num)), c.Sound)
    (h : IsFinite ((Operator.nary op).onValues as)) :
    Scalar.same (collapse op bs) ((Operator.nary op).onValues as) = true := by
  by_cases hop : op = .pow
  · subst hop
    cases hsame with
    | nil => exact absurd rfl hne
    | cons hb hbs => exact collapse_pow hb hbs (List.forall_mem_cons.1 has).2 hsound h
  · have hvalue := onValues_congr hop hsame has h
    exact same_trans (collapse_of_ne_pow hop (forall_isFinite_of_forall₂_same hsame has) hsound
      (isFinite_of_same (same_symm hvalue) h)) hvalue

end Simplify

/-! ## Expressions without variables -/

namespace Expr

open Simplify RoundedScalar

variable [RoundedScalar α]

/-- An expression without variables becomes a constant. If the expression and all its subexpressions
have finite values and no comparison takes one number for another, the constant is the value. -/
theorem normalForm_constant {e : Expr α} (hnames : e.leafNames = []) (ρ : String → α) :
    ∃ b, e.normalForm = .num b ∧
      ((∀ p ∈ e.parts, IsFinite (p.value ρ)) → (∀ c ∈ e.toTree.simplifyTests, c.Sound) →
        Scalar.same b (e.value ρ) = true) := by
  induction e using operands_induction with
  | num a => exact ⟨a, normalForm_num a, fun _ _ => by rw [value]; exact LawfulScalar.same_refl a⟩
  | var x => rw [leafNames] at hnames; cases hnames
  | func f e ih =>
    rw [leafNames] at hnames
    obtain ⟨b, hb, hvalue⟩ := ih hnames
    refine ⟨f.apply b, by rw [normalForm_func, hb, root_func_num], fun hfinite hsound => ?_⟩
    rw [value]
    exact func_congr f (hvalue (fun p hp => hfinite p (mem_parts_argument f hp))
      (forall_tests_func.1 hsound).1)
  | nary op e es ihe ihes =>
    rw [leafNames, List.append_eq_nil_iff, List.flatten_eq_nil_iff, List.forall_mem_map] at hnames
    have hoperands : ∀ d ∈ e :: es, ∃ b, d.normalForm = .num b ∧
        ((∀ p ∈ d.parts, IsFinite (p.value ρ)) → (∀ c ∈ d.toTree.simplifyTests, c.Sound) →
          Scalar.same b (d.value ρ) = true) :=
      List.forall_mem_cons.2 ⟨ihe hnames.1, fun d hd => ihes d hd (hnames.2 d hd)⟩
    have : Nonempty α := ⟨Scalar.ofNat 0⟩
    -- every operand becomes a constant, so the root meets a node of constants
    choose! b hb hvalue using hoperands
    have hmap : (e :: es).map normalForm = ((e :: es).map b).map .num := by
      rw [List.map_map]
      exact List.map_congr_left hb
    refine ⟨collapse op ((e :: es).map b), by rw [normalForm_nary, hmap, root_map_num], ?_⟩
    intro hfinite hsound
    obtain ⟨hlater, hroot⟩ := forall_tests_nary.1 hsound
    rw [hmap] at hroot
    have hparts : ∀ d ∈ e :: es, ∀ p ∈ d.parts, IsFinite (p.value ρ) :=
      List.forall_mem_cons.2 ⟨fun p hp => hfinite p (mem_parts_first op es hp),
        fun d hd p hp => hfinite p (mem_parts_other op e hd hp)⟩
    have hself : (nary op e es).value ρ =
        (Operator.nary op).onValues ((e :: es).map (value ρ)) := by
      rw [value]
      rfl
    rw [hself]
    refine same_collapse (List.cons_ne_nil _ _) ?_ ?_ hroot ?_
    · rw [List.forall₂_map_left_iff, List.forall₂_map_right_iff, List.forall₂_same]
      exact fun d hd => hvalue d hd (hparts d hd) (hlater d hd)
    · exact List.forall_mem_map.2 fun d hd => hparts d hd d (mem_parts_self d)
    · rw [← hself]
      exact hfinite _ (mem_parts_self _)

/-- A tree of an expression without variables becomes a constant. If the expression and all its
subexpressions evaluate to finite numbers and no comparison takes one number for another, the
constant is what the expression evaluates to, up to the sign of zero. -/
theorem simplify_constant {m : Elementary} [m.Lawful] {t : Tree (Machine m)} {e : Expr (Machine m)}
    (hread : t.toExpr = .ok e) (hnames : t.leafNames = []) (bindings : Bindings (Machine m)) :
    ∃ b, t.simplify = .num b ∧
      ((∀ p ∈ e.parts, ∃ a, p.eval bindings = .ok a ∧ Float.isFinite a = true) →
        (∀ c ∈ t.simplifyTests, c.Sound) →
        ∃ a, e.eval bindings = .ok a ∧ Scalar.same b a = true ∧ Scalar.near b a = true) := by
  obtain rfl := toTree_of_toExpr hread
  rw [leafNames_toTree] at hnames
  obtain ⟨b, hb, hvalue⟩ := normalForm_constant hnames bindings.assign
  refine ⟨b, hb, fun hfinite hsound => ?_⟩
  have hparts : ∀ p ∈ e.parts, IsFinite (p.value bindings.assign) := by
    intro p hp
    obtain ⟨a, heval, ha⟩ := hfinite p hp
    rwa [(eval_eq_ok_iff.1 heval).2]
  have hself := hparts e (mem_parts_self e)
  have hsame := hvalue hparts hsound
  have hcovers : bindings.Covers e := fun x hx => by rw [hnames] at hx; cases hx
  exact ⟨_, eval_eq_ok hcovers, hsame,
    near_of_same (isFinite_of_same (same_symm hsame) hself) hsame⟩

/-- `2 / 1 + (5 - 5) * 3 + 3 ^ 2`. -/
def constantSum : Expr (Machine .coarse) :=
  nary .add (nary .div (num (Scalar.ofNat 2)) [num (Scalar.ofNat 1)])
    [nary .mul (nary .sub (num (Scalar.ofNat 5)) [num (Scalar.ofNat 5)]) [num (Scalar.ofNat 3)],
      nary .pow (num (Scalar.ofNat 3)) [num (Scalar.ofNat 2)]]

/-- No comparison takes one number for another there, and the sum becomes what it is evaluated to.
-/
theorem simplify_constant_sum :
    constantSum.toTree.toExpr = .ok constantSum ∧ constantSum.toTree.leafNames = [] ∧
      (∀ p ∈ constantSum.parts, ∃ a, p.eval [] = .ok a ∧ Float.isFinite a = true) ∧
      (∀ c ∈ constantSum.toTree.simplifyTests, c.Sound) ∧
      ∃ b a, constantSum.toTree.simplify = .num b ∧ constantSum.eval [] = .ok a ∧
        Scalar.same b a = true ∧ Scalar.near b a = true := by
  have hread := toExpr_toTree constantSum
  have hnames : constantSum.toTree.leafNames = [] := by
    rw [leafNames_toTree]
    simp [constantSum, leafNames]
  have hfinite : ∀ p ∈ constantSum.parts, ∃ a, p.eval [] = .ok a ∧ Float.isFinite a = true := by
    simp [constantSum, parts, eval, bind, Except.bind, pure, Except.pure]
    decide +kernel
  -- all comparisons on the way are exact, as they are between whole numbers
  have hexact : constantSum.TestsExact := by
    have hnum : ∀ n, (num (Scalar.ofNat n) : Expr (Machine .coarse)).NormalizesTo
        (.num (Scalar.ofNat n)) := fun n => normalizesTo_num _
    have hquotient := normalizesTo_collapse .div (.cons (hnum 2) (.cons (hnum 1) .nil))
      (by decide +kernel)
    have hdifference := normalizesTo_collapse .sub (.cons (hnum 5) (.cons (hnum 5) .nil))
      (by decide +kernel)
    have hproduct := normalizesTo_collapse .mul (.cons hdifference (.cons (hnum 3) .nil))
      (by decide +kernel)
    have hpower := normalizesTo_collapse .pow (.cons (hnum 3) (.cons (hnum 2) .nil))
      (by decide +kernel)
    exact (normalizesTo_collapse .add (.cons hquotient (.cons hproduct (.cons hpower .nil)))
      (by decide +kernel)).2
  have hsound : ∀ c ∈ constantSum.toTree.simplifyTests, c.Sound := fun c hc => (hexact c hc).sound
  obtain ⟨b, hb, hvalue⟩ := simplify_constant hread hnames []
  obtain ⟨a, ha, hsame, hnear⟩ := hvalue hfinite hsound
  exact ⟨hread, hnames, hfinite, hsound, b, a, hb, ha, hsame, hnear⟩

/-- `5e-8 * 1e8` is five, and its first factor counts as zero. -/
theorem not_simplify_near :
    ¬∀ (t : Tree Float) (e : Expr Float), t.toExpr = .ok e → t.leafNames = [] →
      (∀ p ∈ e.parts, ∃ a, p.eval [] = .ok a ∧ a.isFinite = true) →
      ∃ b a, t.simplify = .num b ∧ e.eval [] = .ok a ∧ Scalar.near b a = true := by
  intro h
  have hfinite : ∀ p ∈ (nary .mul (num 5e-8) [num 1e8] : Expr Float).parts,
      ∃ a, p.eval [] = .ok a ∧ a.isFinite = true := by
    simp [parts, eval, bind, Except.bind, pure, Except.pure]
    decide +kernel
  obtain ⟨b, a, hb, ha, hnear⟩ := h _ (nary .mul (num 5e-8) [num 1e8]) (toExpr_toTree _)
    (by rw [leafNames_toTree]; simp [leafNames]) hfinite
  -- two constants are left, the first within the tolerance of zero
  have hcollapse : (nary .mul (num 5e-8) [num 1e8] : Expr Float).normalForm =
      .num (collapse .mul [5e-8, 1e8]) := by
    rw [normalForm_nary, List.map_cons, List.map_singleton, normalForm_num, normalForm_num]
    exact root_map_num .mul [5e-8, 1e8]
  obtain rfl := Tree.num.inj (hb.symm.trans hcollapse)
  have heval : (nary .mul (num 5e-8) [num 1e8] : Expr Float).eval [] =
      .ok (Float.mul 5e-8 1e8) := by
    simp [eval, bind, Except.bind, pure, Except.pure, NaryOp.apply, Scalar.mul]
  obtain rfl := Except.ok.inj (heval.symm.trans ha)
  have hfar : Scalar.near (collapse .mul [5e-8, 1e8]) (Float.mul 5e-8 1e8) = false := by
    decide +kernel
  rw [hfar] at hnear
  cases hnear

end Expr

end Fluxion

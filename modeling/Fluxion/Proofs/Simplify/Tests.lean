import Fluxion.Simplify.NormalForm

/-!
# The constants that simplification tests

Some rules compare a constant with zero or one, up to the tolerance. For every rule, and for the
runs put together from them, this lists the comparisons that are made, in the order in which they
are made: none after the one that decides. `Tree.simplifyTests` are those of a whole simplification.

A test is exact if it does not take two different numbers for one. On doubles an inexact test is
what the tolerance is for; over the reals it is where simplification may change a value.
-/

namespace Fluxion

/-- A comparison of a constant with a number. -/
structure Test (α : Type) where
  constant : α
  number : α

/-- The constant is the number, or is not near it. -/
def Test.Exact {α : Type} [Scalar α] (c : Test α) : Prop :=
  Scalar.near c.constant c.number = true → c.constant = c.number

/-- The comparisons that something does with a tree. -/
abbrev Tests (α : Type) := Tree α → List (Test α)

namespace Rule

variable {α : Type}

/-- The comparisons of the first of some rules that applies, and of the ones before it. -/
def firstTests : List (Rule α × Tests α) → Tests α
  | [], _ => []
  | (r, tests) :: rs, t => tests t ++ if (r t).isSome then [] else firstTests rs t

/-- The comparisons of some rules, each on what the ones before it left. -/
def inTurnTests : List (Rule α × Tests α) → Tests α
  | [], _ => []
  | (r, tests) :: rs, t =>
    tests t ++ inTurnTests rs (match r t with | none => t | some w => w.result)

/-- Rules in turn change nothing exactly if none of them does. -/
theorem inTurn_eq_none {t : Tree α} {rs : List (Rule α)} :
    inTurn rs t = none ↔ ∀ r ∈ rs, r t = none := by
  induction rs with
  | nil => exact ⟨fun _ => List.forall_mem_nil _, fun _ => rfl⟩
  | cons r rs ih =>
    rw [List.forall_mem_cons, ← ih, inTurn]
    cases hr : r t with
    | none => simp
    | some w =>
      refine ⟨fun h => ?_, fun h => by cases h.1⟩
      dsimp only at h
      cases hrs : inTurn rs w.result with
      | none => rw [hrs] at h; cases h
      | some w' => rw [hrs] at h; cases h

/-- The first of some rules is missing exactly if none applies. -/
theorem first_eq_none {t : Tree α} {rs : List (Rule α)} :
    first rs t = none ↔ ∀ r ∈ rs, r t = none := by
  induction rs with
  | nil => exact ⟨fun _ => List.forall_mem_nil _, fun _ => rfl⟩
  | cons r rs ih => rw [List.forall_mem_cons, ← ih, first, Option.or_eq_none_iff]

theorem named_eq_none {step : Step} {f : Tree α → Option (Tree α)} {t : Tree α} :
    named step f t = none ↔ f t = none :=
  Option.map_eq_none_iff

/-- The comparisons of a rule done over and over, the last time in vain. -/
def exhaustTests (r : Rule α) (h : Shrinks r) (tests : Tests α) (t : Tree α) : List (Test α) :=
  match _hr : r t with
  | none => tests t
  | some w => tests t ++ exhaustTests r h tests w.result
termination_by t.weight
decreasing_by exact (h _hr).2

variable {r : Rule α} {h : Shrinks r} {tests : Tests α} {t : Tree α}

theorem exhaust_of_eq_none (hr : r t = none) : exhaust r h t = ⟨t, []⟩ := by
  unfold exhaust
  split
  · rfl
  · next w hw => rw [hr] at hw; cases hw

/-- After a rule has applied it is applied to what it has left. -/
theorem exhaust_of_eq_some {w : Rewrite α} (hr : r t = some w) :
    exhaust r h t =
      ⟨(exhaust r h w.result).result, w.steps ++ (exhaust r h w.result).steps⟩ := by
  conv => lhs; unfold exhaust
  split
  · next hw => rw [hr] at hw; cases hw
  · next w' hw =>
    rw [hr] at hw
    cases hw
    rfl

/-- The comparisons of the last time, which was in vain. -/
theorem exhaustTests_of_eq_none (hr : r t = none) : exhaustTests r h tests t = tests t := by
  unfold exhaustTests
  split
  · rfl
  · next w hw => rw [hr] at hw; cases hw

/-- The comparisons of one time, then those of all later ones. -/
theorem exhaustTests_of_eq_some {w : Rewrite α} (hr : r t = some w) :
    exhaustTests r h tests t = tests t ++ exhaustTests r h tests w.result := by
  conv => lhs; unfold exhaustTests
  split
  · next hw => rw [hr] at hw; cases hw
  · next w' hw =>
    rw [hr] at hw
    cases hw
    rfl

end Rule

namespace Simplify

variable {α : Type}

/-- No comparison. -/
def noTests : Tests α := fun _ => []

/-- A tree is compared with a number if it is a constant. -/
def testsAgainst (a : α) : Tests α
  | .num b => [⟨b, a⟩]
  | _ => []

/-- The coefficient of a merged term is compared with zero and, failing that, with one. -/
def normalTermTests [Scalar α] (c : α) : List (Test α) :=
  ⟨c, Scalar.ofNat 0⟩ :: if Scalar.isZero c then [] else [⟨c, Scalar.ofNat 1⟩]

variable [Scalar α]

/-- Every operand that may be left out is compared with the neutral number. -/
def removeNeutralTests : Tests α
  | .node (.nary op) ts =>
    (if op.commutes then ts else ts.tail).flatMap (testsAgainst (neutral op))
  | _ => []

/-- Operands are compared with zero up to the first that is near it. -/
def anyZeroTests : List (Tree α) → List (Test α)
  | [] => []
  | t :: ts => testsAgainst (Scalar.ofNat 0) t ++ if isZero t then [] else anyZeroTests ts

/-- Exponents are compared with zero. -/
def powerZeroTests : Tests α
  | .node (.nary .pow) (_ :: exponents) => anyZeroTests exponents
  | _ => []

/-- A base is compared with zero. -/
def zeroPowerTests : Tests α
  | .node (.nary .pow) (base :: _) => testsAgainst (Scalar.ofNat 0) base
  | _ => []

/-- A dividend is compared with zero. -/
def divideZeroTests : Tests α
  | .node (.nary .div) (dividend :: _) => testsAgainst (Scalar.ofNat 0) dividend
  | _ => []

/-- Factors are compared with zero. -/
def multiplyZeroTests : Tests α
  | .node (.nary .mul) factors => anyZeroTests factors
  | _ => []

/-- The coefficients of merged terms, whether of a sum or of subtrahends. -/
def mergeTermsTests : List (Tree α) → List (Test α)
  | [] => []
  | t :: ts =>
    match linearTerm? t with
    | none => mergeTermsTests ts
    | some (x, c) =>
      match coefficients x ts with
      | [] => mergeTermsTests ts
      | cs => normalTermTests (cs.foldl Scalar.add c) ++ mergeTermsTests (withoutTerms x ts)
termination_by ts => ts.length
decreasing_by
  · exact Nat.lt_succ_self _
  · exact Nat.lt_succ_self _
  · exact Nat.lt_succ_of_le (length_withoutTerms_le _ _)

/-- The coefficient that is left of a minuend when like terms are subtracted from it. -/
def reduceMinuendTests (minuend : Tree α) (subtrahends : List (Tree α)) : List (Test α) :=
  match linearTerm? minuend with
  | none => []
  | some (x, c) =>
    match coefficients x subtrahends with
    | [] => []
    | cs => normalTermTests (cs.foldl Scalar.sub c)

/-- The coefficients that come of the terms of a sum. -/
def combineTermsTests : Tests α
  | .node (.nary .add) ts => mergeTermsTests ts
  | _ => []

/-- The coefficients that come of a minuend and its subtrahends. -/
def subtractTermsTests : Tests α
  | .node (.nary .sub) (t :: ts) =>
    reduceMinuendTests t ts ++ mergeTermsTests (reduceMinuend t ts).2
  | _ => []

/-! ## Groups of rules -/

/-- The parts of `shortCircuits` with their comparisons. -/
def shortCircuitParts : List (Rule α × Tests α) :=
  [(Rule.named .powerZero powerZero, powerZeroTests),
    (Rule.named .zeroPower zeroPower, zeroPowerTests),
    (Rule.named .divideZero divideZero, divideZeroTests),
    (Rule.named .multiplyZero multiplyZero, multiplyZeroTests)]

/-- The parts of `collections` with their comparisons. -/
def collectionParts : List (Rule α × Tests α) :=
  [(Rule.named .combineLikeTerms combineTerms, combineTermsTests),
    (Rule.named .combineLikeTerms subtractTerms, subtractTermsTests),
    (Rule.named .combineLikeFactors combineFactors, noTests)]

/-- The parts of a pass with their comparisons. -/
def passParts : List (Rule α × Tests α) :=
  [(identities, removeNeutralTests), (shortCircuits, Rule.firstTests shortCircuitParts),
    (Rule.named .evaluate evaluate, noTests), (Rule.named .flatten flatten, noTests),
    (Rule.named .foldConstants foldConstants, noTests),
    (collections, Rule.firstTests collectionParts)]

theorem shortCircuits_eq_first :
    shortCircuits (α := α) = Rule.first (shortCircuitParts.map Prod.fst) := rfl

theorem collections_eq_first :
    collections (α := α) = Rule.first (collectionParts.map Prod.fst) := rfl

/-- A pass is its parts in turn, so its comparisons are those of the parts. -/
theorem pass_eq_inTurn : pass (α := α) = Rule.inTurn (passParts.map Prod.fst) := rfl

/-- The comparisons made at the root of a tree. -/
def rootTests : Tests α
  | .node op ts =>
    if op.isArithmetic then
      Rule.exhaustTests pass pass_shrinks (Rule.inTurnTests passParts) (.node op ts)
    else []
  | _ => []

/-- Only arithmetic is simplified at the root. -/
theorem root_of_isArithmetic {op : Operator} (h : op.isArithmetic = true) (ts : List (Tree α)) :
    root (.node op ts) = Rule.exhaust pass pass_shrinks (.node op ts) := by
  unfold root
  exact if_pos h

theorem rootTests_of_isArithmetic {op : Operator} (h : op.isArithmetic = true)
    (ts : List (Tree α)) :
    rootTests (.node op ts) =
      Rule.exhaustTests pass pass_shrinks (Rule.inTurnTests passParts) (.node op ts) := by
  unfold rootTests
  exact if_pos h

end Simplify

namespace Tree

variable {α : Type} [Scalar α]

theorem simplify_num (a : α) : (num a).simplify = num a := by
  rw [simplify, simplifySteps]
  exact fun _ _ h => by cases h

theorem simplify_var (x : String) : (var x : Tree α).simplify = var x := by
  rw [simplify, simplifySteps]
  exact fun _ _ h => by cases h

/-- The operands are simplified first, and then the root with what became of them. -/
theorem simplify_node (op : Operator) (ts : List (Tree α)) :
    (node op ts).simplify = (Simplify.root (node op (ts.map simplify))).result := by
  rw [simplify, simplifySteps, List.map_map]
  rfl

/-- The comparisons that the simplification of a tree makes. -/
def simplifyTests : Tree α → List (Test α)
  | node op ts =>
    (ts.map simplifyTests).flatten ++ Simplify.rootTests (node op (ts.map simplify))
  | _ => []

end Tree

namespace Expr

variable {α : Type} [Scalar α]

/-- The tree that simplification leaves of an expression. -/
def normalForm (e : Expr α) : Tree α := e.toTree.simplify

@[simp] theorem normalForm_num (a : α) : (num a).normalForm = .num a := by
  rw [normalForm, toTree, Tree.simplify_num]

@[simp] theorem normalForm_var (x : String) : (var x : Expr α).normalForm = .var x := by
  rw [normalForm, toTree, Tree.simplify_var]

/-- What is left of an operator with two operands or more. -/
theorem normalForm_nary (op : NaryOp) (e : Expr α) (es : List (Expr α)) :
    (nary op e es).normalForm =
      (Simplify.root (.node (.nary op) ((e :: es).map normalForm))).result := by
  rw [normalForm, toTree, Tree.simplify_node, List.map_cons, List.map_map]
  rfl

/-- What is left of a function of one operand. -/
theorem normalForm_func (f : Func) (e : Expr α) :
    (func f e).normalForm = (Simplify.root (.node (.func f) [e.normalForm])).result := by
  rw [normalForm, toTree, Tree.simplify_node, List.map_singleton]
  rfl

/-- The operands are simplified first, then the root. -/
theorem forall_tests_nary {P : Test α → Prop} {op : NaryOp} {e : Expr α} {es : List (Expr α)} :
    (∀ c ∈ (nary op e es).toTree.simplifyTests, P c) ↔
      (∀ d ∈ e :: es, ∀ c ∈ d.toTree.simplifyTests, P c) ∧
        ∀ c ∈ Simplify.rootTests (.node (.nary op) ((e :: es).map normalForm)), P c := by
  have hoperands : ((e :: es).map toTree).map Tree.simplify = (e :: es).map normalForm := by
    rw [List.map_map]
    rfl
  rw [toTree, ← List.map_cons, Tree.simplifyTests, hoperands, List.forall_mem_append,
    ← List.flatMap_def, List.flatMap_map]
  simp only [List.mem_flatMap, forall_exists_index, and_imp]
  constructor
  · rintro ⟨hes, hroot⟩
    exact ⟨fun d hd c hc => hes c d hd hc, hroot⟩
  · rintro ⟨hes, hroot⟩
    exact ⟨fun c d hd hc => hes d hd c hc, hroot⟩

theorem forall_tests_func {P : Test α → Prop} {f : Func} {e : Expr α} :
    (∀ c ∈ (func f e).toTree.simplifyTests, P c) ↔
      (∀ c ∈ e.toTree.simplifyTests, P c) ∧
        ∀ c ∈ Simplify.rootTests (.node (.func f) [e.normalForm]), P c := by
  rw [toTree, Tree.simplifyTests, List.map_singleton, List.flatten_singleton,
    List.forall_mem_append]
  rfl

/-- The comparisons made when an expression is simplified are exact. -/
def TestsExact (e : Expr α) : Prop := ∀ c ∈ e.toTree.simplifyTests, c.Exact

/-- The comparisons of an operator are those of its operands, and those at its root. -/
theorem testsExact_nary {op : NaryOp} {e : Expr α} {es : List (Expr α)} :
    (nary op e es).TestsExact ↔ (∀ d ∈ e :: es, d.TestsExact) ∧
      ∀ c ∈ Simplify.rootTests (.node (.nary op) ((e :: es).map normalForm)), c.Exact :=
  forall_tests_nary

/-- The comparisons of a function are those of its operand, and those at its root. -/
theorem testsExact_func {f : Func} {e : Expr α} :
    (func f e).TestsExact ↔
      e.TestsExact ∧ ∀ c ∈ Simplify.rootTests (.node (.func f) [e.normalForm]), c.Exact :=
  forall_tests_func

end Expr

end Fluxion

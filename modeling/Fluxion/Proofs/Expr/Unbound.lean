import Fluxion.Proofs.Expr.Values

/-!
# Which variable is reported

Evaluation meets the leaves of an expression from left to right and stops at the first that has no
value, whatever the values before it are. So it fails exactly if some variable is unbound, the
failure names the first of them, and otherwise nothing but the first value of each variable of the
expression goes into the result (`Expr.eval_firstUnbound`).
-/

namespace Fluxion

variable {α : Type} {bindings : Bindings α} {x : String}

namespace Bindings

/-- The first of some names that has no value. -/
def firstUnbound? (bindings : Bindings α) (names : List String) : Option String :=
  names.find? fun x => (bindings.lookup x).isNone

theorem lookup_eq_none_iff : bindings.lookup x = none ↔ x ∉ bindings.map Prod.fst := by
  rw [List.lookup_eq_none_iff, List.mem_map]
  constructor
  · rintro h ⟨binding, hmem, rfl⟩
    simpa using h binding hmem
  · intro h binding hmem
    simpa using fun hx => h ⟨binding, hmem, hx.symm⟩

theorem firstUnbound?_append (names others : List String) :
    bindings.firstUnbound? (names ++ others) =
      (bindings.firstUnbound? names).or (bindings.firstUnbound? others) :=
  List.find?_append

/-- What is found is unbound, and all names before it are bound. -/
theorem firstUnbound?_eq_some_iff {names : List String} :
    bindings.firstUnbound? names = some x ↔
      bindings.lookup x = none ∧ ∃ before after, names = before ++ x :: after ∧
        ∀ y ∈ before, bindings.lookup y ≠ none := by
  rw [firstUnbound?, List.find?_eq_some_iff_append, Option.isNone_iff_eq_none]
  simp only [Bool.not_eq_eq_eq_not, Bool.not_true, Option.isNone_eq_false_iff,
    ← Option.ne_none_iff_isSome]

/-- Nothing is found exactly if every variable has a value. -/
theorem firstUnbound?_eq_none_iff {e : Expr α} :
    bindings.firstUnbound? e.leafNames = none ↔ bindings.Covers e := by
  rw [firstUnbound?, List.find?_eq_none]
  simp only [Covers, Expr.NamesIn, Bool.not_eq_true, Option.isNone_eq_false_iff]

end Bindings

namespace Expr

open Bindings

variable [Scalar α]

/-- Among operands that are evaluated one after another, the first failure is that of the first leaf
without a value. -/
theorem mapM_eval_eq_error {es : List (Expr α)}
    (ih : ∀ d ∈ es, ∀ y, bindings.firstUnbound? d.leafNames = some y → d.eval bindings = .error ⟨y⟩)
    (h : bindings.firstUnbound? (es.map leafNames).flatten = some x) :
    es.mapM (eval bindings) = .error ⟨x⟩ := by
  induction es with
  | nil => cases h
  | cons d es ihes =>
    obtain ⟨hd, hes⟩ := List.forall_mem_cons.1 ih
    rw [List.map_cons, List.flatten_cons, firstUnbound?_append] at h
    rw [List.mapM_cons]
    cases hfirst : bindings.firstUnbound? d.leafNames with
    | some y =>
      rw [hfirst, Option.some_or] at h
      rw [hd y hfirst, Option.some.inj h]
      rfl
    | none =>
      rw [hfirst, Option.none_or] at h
      rw [eval_eq_ok (firstUnbound?_eq_none_iff.1 hfirst), ihes hes h]
      rfl

/-- The failure names the first leaf without a value. -/
theorem eval_eq_error {e : Expr α} (h : bindings.firstUnbound? e.leafNames = some x) :
    e.eval bindings = .error ⟨x⟩ := by
  induction e using operands_induction generalizing x with
  | num a =>
    rw [leafNames] at h
    cases h
  | var y =>
    obtain ⟨hx, before, after, hnames, -⟩ := firstUnbound?_eq_some_iff.1 h
    rw [leafNames] at hnames
    obtain rfl : x = y := by
      have : x ∈ [y] := hnames ▸ List.mem_append_right _ List.mem_cons_self
      simpa using this
    simp only [eval, hx]
  | nary op e es ihe ihes =>
    rw [leafNames, firstUnbound?_append] at h
    rw [eval]
    cases hfirst : bindings.firstUnbound? e.leafNames with
    | some y =>
      rw [hfirst, Option.some_or] at h
      rw [ihe hfirst, Option.some.inj h]
      rfl
    | none =>
      -- the first operand has a value, so the leaf is one of the others
      rw [hfirst, Option.none_or] at h
      rw [eval_eq_ok (firstUnbound?_eq_none_iff.1 hfirst),
        mapM_eval_eq_error (fun d hd _ => ihes d hd) h]
      rfl
  | func f e ih =>
    rw [leafNames] at h
    rw [eval, ih h]
    rfl

/-- The two outcomes of an evaluation. -/
theorem eval_eq (bindings : Bindings α) (e : Expr α) :
    e.eval bindings = match bindings.firstUnbound? e.leafNames with
      | some x => .error ⟨x⟩
      | none => .ok (e.value bindings.assign) := by
  split
  · next x h => exact eval_eq_error h
  · next h => exact eval_eq_ok (firstUnbound?_eq_none_iff.1 h)

theorem eval_eq_error_iff {e : Expr α} {u : UnboundVariable} :
    e.eval bindings = .error u ↔ bindings.firstUnbound? e.leafNames = some u.name := by
  constructor
  · intro h
    rw [eval_eq] at h
    split at h
    · next y hy =>
      cases h
      exact hy
    · cases h
  · exact eval_eq_error

/-- Evaluation fails exactly if some variable is unbound. The failure names the first unbound
variable among the leaves from left to right. A result is the same under all values that agree with
these in the first value of each variable of the expression. -/
theorem eval_firstUnbound (e : Expr α) (bindings : Bindings α) :
    ((∃ u, e.eval bindings = .error u) ↔ ∃ x ∈ e.leafNames, x ∉ bindings.map Prod.fst) ∧
    (∀ u, e.eval bindings = .error u → u.name ∉ bindings.map Prod.fst ∧
      ∃ before after, e.leafNames = before ++ u.name :: after ∧
        ∀ y ∈ before, y ∈ bindings.map Prod.fst) ∧
    ∀ a, e.eval bindings = .ok a → ∀ bindings' : Bindings α,
      (∀ x ∈ e.leafNames, bindings'.lookup x = bindings.lookup x) → e.eval bindings' = .ok a := by
  refine ⟨⟨?_, ?_⟩, ?_, ?_⟩
  · rintro ⟨u, hu⟩
    obtain ⟨hx, before, after, hnames, -⟩ := firstUnbound?_eq_some_iff.1 (eval_eq_error_iff.1 hu)
    exact ⟨u.name, hnames ▸ List.mem_append_right _ List.mem_cons_self, lookup_eq_none_iff.1 hx⟩
  · rintro ⟨x, hx, hunbound⟩
    -- if no leaf were unbound the list would be covered, against `hunbound`
    cases hfirst : bindings.firstUnbound? e.leafNames with
    | some y => exact ⟨⟨y⟩, eval_eq_error hfirst⟩
    | none =>
      have hbound : (bindings.lookup x).isSome = true := firstUnbound?_eq_none_iff.1 hfirst x hx
      rw [lookup_eq_none_iff.2 hunbound] at hbound
      cases hbound
  · intro u hu
    obtain ⟨hx, before, after, hnames, hbefore⟩ :=
      firstUnbound?_eq_some_iff.1 (eval_eq_error_iff.1 hu)
    refine ⟨lookup_eq_none_iff.1 hx, before, after, hnames, fun y hy => ?_⟩
    exact Decidable.byContradiction fun hunbound => hbefore y hy (lookup_eq_none_iff.2 hunbound)
  · intro a ha bindings' hagree
    obtain ⟨hcovers, rfl⟩ := eval_eq_ok_iff.1 ha
    refine eval_eq_ok_iff.2 ⟨fun x hx => ?_, value_congr fun x hx => ?_⟩
    · show (bindings'.lookup x).isSome = true
      rw [hagree x hx]
      exact hcovers x hx
    · show (bindings'.lookup x).getD _ = (bindings.lookup x).getD _
      rw [hagree x hx]

/-- Behind a term that is not a number, and with a factor of zero, it is still the first unbound
variable that is reported. -/
theorem eval_firstUnbound_zero_times :
    (nary .add (nary .div (num 0) [num 0]) [nary .mul (num 0) [var "x", var "y", var "z"]] :
      Expr Float).eval [("x", 1)] = .error ⟨"y"⟩ ∧
    "y" ∉ [("x", (1 : Float))].map Prod.fst ∧
    ∃ before after, ["x", "y", "z"] = before ++ "y" :: after ∧
      ∀ x ∈ before, x ∈ [("x", (1 : Float))].map Prod.fst := by
  have herror : (nary .add (nary .div (num 0) [num 0])
      [nary .mul (num 0) [var "x", var "y", var "z"]] : Expr Float).eval [("x", 1)] =
        .error ⟨"y"⟩ := by
    refine eval_eq_error ?_
    simp only [leafNames, List.map_cons, List.map_nil, List.flatten_cons, List.flatten_nil]
    rfl
  exact ⟨herror, by simpa [leafNames] using (eval_firstUnbound _ _).2.1 _ herror⟩

end Expr

end Fluxion

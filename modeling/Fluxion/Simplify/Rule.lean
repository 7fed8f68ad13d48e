import Fluxion.Tree.Weight

/-!
# Rules

A rule rewrites the root of a tree, or does not apply. A rewrite comes with the steps it took, so
that a run of rules can be told from its result. Rules are put together in two ways: the first that
applies, and all that apply, one after another. What every one of them ensures of its rewrites, both
ways ensure (`Rule.Ensures`), provided that it goes over to two rewrites one after another. Above
all this is that a rewrite is lighter than what it rewrites, so that a rule can be done until it
does not apply.
-/

namespace Fluxion

/-- What a single rewrite does. -/
inductive Step where
  /-- `a + 0 = a`, `a - 0 = a`, `a * 1 = a`, `a / 1 = a`, `a ^ 1 = a`. -/
  | removeNeutral
  /-- An operator with one operand is that operand, one with none its neutral operand. -/
  | spliceUp
  /-- `a ^ 0 = 1`. -/
  | powerZero
  /-- `0 ^ a = 0`. -/
  | zeroPower
  /-- `0 / a = 0`. -/
  | divideZero
  /-- `0 * a = 0`. -/
  | multiplyZero
  /-- An expression without variables is its value. -/
  | evaluate
  /-- `a + (b + c) = a + b + c`, and likewise for the other operators that allow it. -/
  | flatten
  /-- `2 + a + 3 = 5 + a`, and likewise for the other operators. -/
  | foldConstants
  /-- `a + a = a * 2`. -/
  | combineLikeTerms
  /-- `a * a = a ^ 2`. -/
  | combineLikeFactors
  deriving DecidableEq

/-- A tree and the steps that led to it. -/
structure Rewrite (α : Type) where
  result : Tree α
  steps : List Step

/-- A partial function on trees that records its steps. -/
abbrev Rule (α : Type) := Tree α → Option (Rewrite α)

/-- What a function on trees yields is lighter than what it is given. -/
def Shrinking {α : Type} (f : Tree α → Option (Tree α)) : Prop :=
  ∀ {t t' : Tree α}, f t = some t' → Tree.Lighter t' t

namespace Rule

variable {α : Type}

/-- Whatever the rule makes of a tree, `P` holds of the two. -/
def Ensures (P : Tree α → Rewrite α → Prop) (r : Rule α) : Prop :=
  ∀ ⦃t w⦄, r t = some w → P t w

/-- What holds of a rewrite, and of another of its result, holds of both as one. -/
def Composes (P : Tree α → Rewrite α → Prop) : Prop :=
  ∀ ⦃t w w'⦄, P t w → P w.result w' → P t ⟨w'.result, w.steps ++ w'.steps⟩

/-- What a rule yields is lighter than what it is given. -/
def Shrinks (r : Rule α) : Prop := Ensures (fun t w => Tree.Lighter w.result t) r

/-- The rule that does `f` and records it as one step. -/
def named (step : Step) (f : Tree α → Option (Tree α)) : Rule α :=
  fun t => (f t).map fun t' => ⟨t', [step]⟩

/-- The first of some rules that applies. -/
def first : List (Rule α) → Rule α
  | [], _ => none
  | r :: rs, t => (r t).or (first rs t)

/-- Every one of some rules that applies, each to what the ones before it left. -/
def inTurn : List (Rule α) → Rule α
  | [], _ => none
  | r :: rs, t =>
    match r t with
    | none => inTurn rs t
    | some w =>
      match inTurn rs w.result with
      | none => some w
      | some w' => some ⟨w'.result, w.steps ++ w'.steps⟩

section Ensures

variable {P : Tree α → Rewrite α → Prop} {rs : List (Rule α)}

/-- A rule with a step ensures what holds of all that its function makes. -/
theorem Ensures.named {step : Step} {f : Tree α → Option (Tree α)}
    (h : ∀ t t', f t = some t' → P t ⟨t', [step]⟩) : Ensures P (named step f) := by
  intro t w hw
  obtain ⟨t', ht', rfl⟩ := Option.map_eq_some_iff.1 hw
  exact h t t' ht'

/-- What each of some rules ensures, the first that applies ensures. -/
theorem Ensures.first (h : ∀ r ∈ rs, Ensures P r) : Ensures P (first rs) := by
  induction rs with
  | nil => intro t w hw; cases hw
  | cons r rs ih =>
    obtain ⟨hr, hrs⟩ := List.forall_mem_cons.1 h
    intro t w hw
    rw [Rule.first, Option.or_eq_some_iff] at hw
    rcases hw with hw | ⟨-, hw⟩
    · exact hr hw
    · exact ih hrs hw

/-- What each of some rules ensures, all of them ensure one after another. -/
theorem Ensures.inTurn (hP : Composes P) (h : ∀ r ∈ rs, Ensures P r) : Ensures P (inTurn rs) := by
  induction rs with
  | nil => intro t w hw; cases hw
  | cons r rs ih =>
    obtain ⟨hr, hrs⟩ := List.forall_mem_cons.1 h
    intro t w hw
    rw [Rule.inTurn] at hw
    split at hw
    · exact ih hrs hw
    · next w₁ hfirst =>
      split at hw
      · cases hw
        exact hr hfirst
      · next w₂ hlater =>
        cases hw
        exact hP (hr hfirst) (ih hrs hlater)

end Ensures

/-- Lighter and lighter is lighter. -/
theorem Shrinks.composes : Composes fun (t : Tree α) w => Tree.Lighter w.result t :=
  fun _ _ _ h h' => h'.trans h

/-- A rule done over and over until it does not apply. -/
def exhaust (r : Rule α) (h : Shrinks r) (t : Tree α) : Rewrite α :=
  match _hr : r t with
  | none => ⟨t, []⟩
  | some w =>
    let last := exhaust r h w.result
    ⟨last.result, w.steps ++ last.steps⟩
termination_by t.weight
decreasing_by exact (h _hr).2

/-- What a rule ensures, it ensures when done over and over, if it holds where nothing is done. -/
theorem Ensures.exhaust {P : Tree α → Rewrite α → Prop} {r : Rule α} {hr : Shrinks r}
    (hP : Composes P) (hnone : ∀ t, P t ⟨t, []⟩) (h : Ensures P r) (t : Tree α) :
    P t (exhaust r hr t) := by
  fun_induction Rule.exhaust r hr t with
  | case1 t _ => exact hnone t
  | case2 t w hw last ih => exact hP (h hw) ih

end Rule

end Fluxion

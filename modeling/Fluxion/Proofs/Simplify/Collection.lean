import Mathlib.Data.List.Infix
import Fluxion.Proofs.Simplify.Normal

/-!
# Collection loses nothing and keeps the order

What the rules for like terms and like factors make of all operands at once
(`Simplify.collections_iff`): an operand whose variable no other has stays where it is, operands
with a variable in common become one where the first of them stood, and a rule applies if there are
such.

The rules take up the operands one by one and look for the rest of a group behind its first member.
Seen from all operands, a member is the first if none before it has the variable
(`Grouping.share?`). The two views agree since whatever is taken from behind a first member would
have had no share (`filterMapEarlier_filter`).
-/

namespace Fluxion.Simplify

variable {α : Type}

/-! ## Entries of a list with those before them -/

section Earlier

variable {β γ : Type}

/-- What `f` makes of each entry, given the entries before it. -/
def filterMapEarlier (f : List β → β → Option γ) (bs : List β) : List γ :=
  (bs.zip bs.inits).filterMap fun b => f b.2 b.1

/-- The first entry has none before it, and is before all others. -/
theorem filterMapEarlier_cons (f : List β → β → Option γ) (b : β) (bs : List β) :
    filterMapEarlier f (b :: bs) =
      (f [] b).toList ++ filterMapEarlier (fun earlier => f (b :: earlier)) bs := by
  rw [filterMapEarlier, List.inits_cons, List.zip_cons_cons, List.filterMap_cons,
    List.zip_map_right, List.filterMap_map]
  cases f [] b <;> rfl

theorem filterMapEarlier_congr {f g : List β → β → Option γ} {bs : List β}
    (h : ∀ earlier, ∀ b ∈ bs, f earlier b = g earlier b) :
    filterMapEarlier f bs = filterMapEarlier g bs :=
  List.filterMap_congr fun b hb => h b.2 b.1 (List.of_mem_zip hb).1

theorem filterMapEarlier_some (bs : List β) : filterMapEarlier (fun _ b => some b) bs = bs := by
  induction bs with
  | nil => rfl
  | cons b bs ih =>
    rw [filterMapEarlier_cons, ih]
    rfl

/-- Entries of which nothing is made can be left out, if nothing depends on their coming earlier. -/
theorem filterMapEarlier_filter {p : β → Bool} {f g : List β → β → Option γ} {bs : List β}
    (hout : ∀ earlier, ∀ b ∈ bs, p b = false → f earlier b = none)
    (hin : ∀ earlier, ∀ b ∈ bs, p b = true → f earlier b = g (earlier.filter p) b) :
    filterMapEarlier f bs = filterMapEarlier g (bs.filter p) := by
  induction bs generalizing f g with
  | nil => rfl
  | cons b bs ih =>
    have hout' : ∀ earlier, ∀ c ∈ bs, p c = false → f (b :: earlier) c = none :=
      fun earlier c hc => hout (b :: earlier) c (List.mem_cons_of_mem b hc)
    have hin' : ∀ earlier, ∀ c ∈ bs, p c = true →
        f (b :: earlier) c = g ((b :: earlier).filter p) c :=
      fun earlier c hc => hin (b :: earlier) c (List.mem_cons_of_mem b hc)
    rw [filterMapEarlier_cons]
    -- an entry that is kept goes on to the earlier ones of both; another one adds nothing to
    -- either
    cases hb : p b with
    | true =>
      simp only [List.filter_cons_of_pos hb] at hin' ⊢
      rw [filterMapEarlier_cons, hin [] b List.mem_cons_self hb,
        ih (g := fun earlier => g (b :: earlier)) hout' hin']
      rfl
    | false =>
      have hneg : ¬ p b = true := Bool.eq_false_iff.1 hb
      simp only [List.filter_cons_of_neg hneg] at hin' ⊢
      rw [hout [] b List.mem_cons_self hb, ih hout' hin']
      rfl

end Earlier

/-! ## Groups -/

/-- A way to put operands together: those that have a name in common make a group. -/
structure Grouping (α : Type) where
  /-- The name of an operand that can be put together with others. -/
  name? : Tree α → Option String
  /-- What a group becomes. -/
  join : String → List (Tree α) → Tree α

namespace Grouping

variable (g : Grouping α) {x : String} {t : Tree α} {ts : List (Tree α)}

/-- The operands with a name, in order. -/
def named (x : String) (ts : List (Tree α)) : List (Tree α) :=
  ts.filter fun t => g.name? t == some x

/-- The operands without a name or with another one. -/
def others (x : String) (ts : List (Tree α)) : List (Tree α) :=
  ts.filter fun t => g.name? t != some x

/-- No other of the operands has the same name. -/
def isAlone (ts : List (Tree α)) (t : Tree α) : Bool :=
  match g.name? t with
  | some x => decide ((g.named x ts).length < 2)
  | none => true

/-- What becomes of a group of two or more of the operands, if this is the first of them. -/
def joint? (ts earlier : List (Tree α)) (t : Tree α) : Option (Tree α) :=
  match g.name? t with
  | some x =>
    if 2 ≤ (g.named x ts).length ∧ (g.named x earlier).isEmpty then some (g.join x (g.named x ts))
    else none
  | none => none

/-- What stands for one of the operands: itself if it is alone, its group if it is the first of it,
and else nothing. -/
def share? (ts earlier : List (Tree α)) (t : Tree α) : Option (Tree α) :=
  if g.isAlone ts t then some t else g.joint? ts earlier t

/-- The operands with each group put together where its first member stood. -/
def collected (ts : List (Tree α)) : List (Tree α) := filterMapEarlier (g.share? ts) ts

/-- The groups of two or more, each put together, in the order of their first members. -/
def joints (ts : List (Tree α)) : List (Tree α) := filterMapEarlier (g.joint? ts) ts

/-- The operands that are in no group of two or more. -/
def alone (ts : List (Tree α)) : List (Tree α) := ts.filter (g.isAlone ts)

/-! ### One operand and those behind it -/

theorem named_cons_self (h : g.name? t = some x) : g.named x (t :: ts) = t :: g.named x ts := by
  rw [named, List.filter_cons_of_pos (by rw [h]; exact beq_self_eq_true _)]
  rfl

theorem named_cons_of_ne (h : g.name? t ≠ some x) : g.named x (t :: ts) = g.named x ts := by
  rw [named, List.filter_cons_of_neg (by simpa using h)]
  rfl

/-- To take out one name leaves the operands of another. -/
theorem named_others {y : String} (h : y ≠ x) (ts : List (Tree α)) :
    g.named y (g.others x ts) = g.named y ts := by
  rw [named, others, List.filter_filter]
  refine List.filter_congr fun u _ => ?_
  by_cases hu : g.name? u = some y
  · simp [hu, h]
  · simp [hu]

/-- Where no operand has the name none is taken out. -/
theorem others_eq_self (h : g.named x ts = []) : g.others x ts = ts := by
  refine List.filter_eq_self.2 fun u hu => ?_
  have hne := List.filter_eq_nil_iff.1 h u hu
  simpa using hne

theorem isAlone_of_none (h : g.name? t = none) (ts : List (Tree α)) : g.isAlone ts t = true := by
  rw [isAlone, h]

theorem isAlone_of_name (h : g.name? t = some x) (ts : List (Tree α)) :
    g.isAlone ts t = decide ((g.named x ts).length < 2) := by
  rw [isAlone, h]

theorem joint?_of_none (h : g.name? t = none) (ts earlier : List (Tree α)) :
    g.joint? ts earlier t = none := by
  rw [joint?, h]

theorem joint?_of_name (h : g.name? t = some x) (ts earlier : List (Tree α)) :
    g.joint? ts earlier t =
      if 2 ≤ (g.named x ts).length ∧ (g.named x earlier).isEmpty then some (g.join x (g.named x ts))
      else none := by
  rw [joint?, h]

/-- Whether an operand is alone depends on those with its name. -/
theorem isAlone_congr {us : List (Tree α)}
    (h : ∀ x, g.name? t = some x → g.named x ts = g.named x us) :
    g.isAlone ts t = g.isAlone us t := by
  cases hname : g.name? t with
  | none => rw [g.isAlone_of_none hname, g.isAlone_of_none hname]
  | some x => rw [g.isAlone_of_name hname, g.isAlone_of_name hname, h x hname]

/-- What becomes of an operand depends on those with its name. -/
theorem joint?_congr {us earlier earlier' : List (Tree α)}
    (h : ∀ x, g.name? t = some x → g.named x ts = g.named x us)
    (h' : ∀ x, g.name? t = some x → g.named x earlier = g.named x earlier') :
    g.joint? ts earlier t = g.joint? us earlier' t := by
  cases hname : g.name? t with
  | none => rw [g.joint?_of_none hname, g.joint?_of_none hname]
  | some x => rw [g.joint?_of_name hname, g.joint?_of_name hname, h x hname, h' x hname]

section Single

variable (hsingle : ∀ x, g.name? t = some x → g.named x ts = [])

include hsingle

/-- An operand without a name, or with one that none behind it has, is no matter to those. -/
theorem named_cons_of_single {u : Tree α} (hu : u ∈ ts) {y : String} (hname : g.name? u = some y)
    (us : List (Tree α)) : g.named y (t :: us) = g.named y us := by
  refine g.named_cons_of_ne fun ht => ?_
  have hmem : u ∈ g.named y ts := List.mem_filter.2 ⟨hu, by rw [hname]; exact beq_self_eq_true _⟩
  rw [hsingle y ht] at hmem
  cases hmem

theorem isAlone_single : g.isAlone (t :: ts) t = true := by
  cases hname : g.name? t with
  | none => exact g.isAlone_of_none hname _
  | some x =>
    rw [g.isAlone_of_name hname, g.named_cons_self hname, hsingle x hname]
    rfl

/-- It is kept in front of those behind it that are in no group either. -/
theorem alone_single : g.alone (t :: ts) = t :: g.alone ts := by
  have halone : ∀ u ∈ ts, g.isAlone (t :: ts) u = g.isAlone ts u := fun u hu =>
    g.isAlone_congr fun y hy => g.named_cons_of_single hsingle hu hy ts
  rw [alone, List.filter_cons_of_pos (g.isAlone_single hsingle), List.filter_congr halone]
  rfl

/-- It adds nothing to the groups of those behind it. -/
theorem joints_single : g.joints (t :: ts) = g.joints ts := by
  have hnone : g.joint? (t :: ts) [] t = none := by
    cases hname : g.name? t with
    | none => exact g.joint?_of_none hname _ _
    | some x =>
      rw [g.joint?_of_name hname, g.named_cons_self hname, hsingle x hname]
      rfl
  rw [joints, filterMapEarlier_cons, hnone]
  exact filterMapEarlier_congr fun earlier u hu =>
    g.joint?_congr (fun y hy => g.named_cons_of_single hsingle hu hy ts)
      fun y hy => g.named_cons_of_single hsingle hu hy earlier

/-- It stays where it is, in front of what becomes of those behind it. -/
theorem collected_single : g.collected (t :: ts) = t :: g.collected ts := by
  rw [collected, filterMapEarlier_cons, share?, if_pos (g.isAlone_single hsingle)]
  refine congrArg (t :: ·) (filterMapEarlier_congr fun earlier u hu => ?_)
  rw [share?, share?, g.isAlone_congr fun y hy => g.named_cons_of_single hsingle hu hy ts,
    g.joint?_congr (fun y hy => g.named_cons_of_single hsingle hu hy ts)
      fun y hy => g.named_cons_of_single hsingle hu hy earlier]

end Single

section Repeated

variable (hname : g.name? t = some x) (hrepeated : g.named x ts ≠ [])

include hname

/-- Behind an operand with a name, those with another name see the others only. -/
theorem named_cons_of_other {u : Tree α} (hu : g.name? u ≠ some x) {y : String}
    (hy : g.name? u = some y) (us : List (Tree α)) :
    g.named y (t :: us) = g.named y (g.others x us) := by
  have hne : y ≠ x := by
    rintro rfl
    exact hu hy
  rw [g.named_others hne, g.named_cons_of_ne]
  rw [hname]
  exact fun h => hne (Option.some.inj h).symm

include hrepeated

/-- The operand and one behind it have the name in common. -/
theorem two_le_named : 2 ≤ (g.named x (t :: ts)).length := by
  rw [g.named_cons_self hname, List.length_cons]
  exact Nat.succ_le_succ (List.length_pos_iff.2 hrepeated)

theorem isAlone_repeated {u : Tree α} (hu : g.name? u = some x) :
    g.isAlone (t :: ts) u = false := by
  rw [g.isAlone_of_name hu]
  exact decide_eq_false (Nat.not_lt.2 (g.two_le_named hname hrepeated))

/-- The first member of a group gets all that becomes of it. -/
theorem joint?_first :
    g.joint? (t :: ts) [] t = some (g.join x (t :: g.named x ts)) := by
  rw [g.joint?_of_name hname, if_pos ⟨g.two_le_named hname hrepeated, rfl⟩, g.named_cons_self hname]

omit hrepeated in
theorem joint?_later {u : Tree α} (hu : g.name? u = some x) (us earlier : List (Tree α)) :
    g.joint? us (t :: earlier) u = none := by
  rw [g.joint?_of_name hu, g.named_cons_self hname]
  exact if_neg fun h => Bool.false_ne_true h.2

/-- None of the group is left, and the others do not see it. -/
theorem alone_repeated : g.alone (t :: ts) = g.alone (g.others x ts) := by
  have hfirst : g.isAlone (t :: ts) t ≠ true :=
    ne_true_of_eq_false (g.isAlone_repeated hname hrepeated hname)
  rw [alone, List.filter_cons_of_neg hfirst, alone, others, List.filter_filter]
  refine List.filter_congr fun u _ => ?_
  by_cases hu : g.name? u = some x
  · rw [g.isAlone_repeated hname hrepeated hu, hu]
    simp
  · rw [g.isAlone_congr fun y hy => g.named_cons_of_other hname hu hy ts]
    simp [others, hu]

/-- The group comes first, then those of the other operands. -/
theorem joints_repeated :
    g.joints (t :: ts) = g.join x (t :: g.named x ts) :: g.joints (g.others x ts) := by
  rw [joints, filterMapEarlier_cons, g.joint?_first hname hrepeated]
  refine congrArg (_ :: ·) (filterMapEarlier_filter ?_ ?_)
  · intro earlier u _ hu
    exact g.joint?_later hname (by simpa using hu) _ _
  · intro earlier u _ hu
    have hu : g.name? u ≠ some x := by simpa using hu
    exact g.joint?_congr (fun y hy => g.named_cons_of_other hname hu hy ts)
      fun y hy => g.named_cons_of_other hname hu hy earlier

/-- The group is put together in front of what becomes of the other operands. -/
theorem collected_repeated :
    g.collected (t :: ts) = g.join x (t :: g.named x ts) :: g.collected (g.others x ts) := by
  rw [collected, filterMapEarlier_cons, share?,
    if_neg (ne_true_of_eq_false (g.isAlone_repeated hname hrepeated hname)),
    g.joint?_first hname hrepeated]
  refine congrArg (_ :: ·) (filterMapEarlier_filter ?_ ?_)
  · intro earlier u _ hu
    have hu : g.name? u = some x := by simpa using hu
    rw [share?, if_neg (ne_true_of_eq_false (g.isAlone_repeated hname hrepeated hu))]
    exact g.joint?_later hname hu _ _
  · intro earlier u _ hu
    have hu : g.name? u ≠ some x := by simpa using hu
    rw [share?, g.isAlone_congr fun y hy => g.named_cons_of_other hname hu hy ts,
      g.joint?_congr (fun y hy => g.named_cons_of_other hname hu hy ts)
        fun y hy => g.named_cons_of_other hname hu hy earlier]
    rfl

end Repeated

/-! ### Nothing in common -/

/-- If no two operands have a name in common, none behind the first has its name. -/
theorem single_of_distinct (hdistinct : ∀ x, (g.named x (t :: ts)).length < 2) :
    ∀ x, g.name? t = some x → g.named x ts = [] := by
  intro x hx
  have hlength := hdistinct x
  rw [g.named_cons_self hx, List.length_cons] at hlength
  exact List.length_eq_zero_iff.1 (Nat.lt_one_iff.1 (Nat.lt_of_succ_lt_succ hlength))

section Distinct

variable (hdistinct : ∀ x, (g.named x ts).length < 2)

include hdistinct

theorem isAlone_distinct (t : Tree α) : g.isAlone ts t = true := by
  cases hname : g.name? t with
  | none => exact g.isAlone_of_none hname ts
  | some x =>
    rw [g.isAlone_of_name hname]
    exact decide_eq_true (hdistinct x)

theorem alone_distinct : g.alone ts = ts :=
  List.filter_eq_self.2 fun t _ => g.isAlone_distinct hdistinct t

theorem joints_distinct : g.joints ts = [] := by
  refine List.filterMap_eq_nil_iff.2 fun p _ => ?_
  cases hname : g.name? p.1 with
  | none => exact g.joint?_of_none hname ts p.2
  | some x =>
    rw [g.joint?_of_name hname]
    exact if_neg fun h => Nat.not_lt.2 h.1 (hdistinct x)

theorem collected_distinct : g.collected ts = ts := by
  have hshare : ∀ earlier, ∀ t ∈ ts, g.share? ts earlier t = some t := by
    intro earlier t _
    rw [share?, if_pos (g.isAlone_distinct hdistinct t)]
  exact (filterMapEarlier_congr hshare).trans (filterMapEarlier_some ts)

end Distinct

/-- What leaves operands alone if no two of them go together, and else makes them fewer, makes them
fewer if and only if two go together. -/
theorem shorter_iff {merged : List (Tree α)}
    (hsame : (∀ x, (g.named x ts).length < 2) → merged = ts)
    (hlong : ¬merged.length < ts.length → ∀ x, (g.named x ts).length ≤ 1) :
    merged.length < ts.length ↔ ∃ x, 2 ≤ (g.named x ts).length := by
  constructor
  · intro hshorter
    by_contra hnone
    have hdistinct : ∀ x, (g.named x ts).length < 2 := fun x =>
      Nat.lt_of_not_le fun htwo => hnone ⟨x, htwo⟩
    rw [hsame hdistinct] at hshorter
    exact Nat.lt_irrefl _ hshorter
  · rintro ⟨x, htwo⟩
    by_contra hshorter
    exact Nat.not_succ_le_self 1 (htwo.trans (hlong hshorter x))

end Grouping

/-! ## Like terms -/

section Terms

variable [Scalar α]

/-- The sum of some numbers from left to right. -/
def sumOf : List α → α
  | [] => Scalar.ofNat 0
  | c :: cs => cs.foldl Scalar.add c

/-- Linear terms in one variable go together, and become one with the sum of their coefficients. -/
def linearTerms : Grouping α where
  name? t := (linearTerm? t).map Prod.fst
  join x ts := normalTerm x (sumOf (coefficients x ts))

/-- What becomes of a minuend: it loses the coefficients of the subtrahends with its variable. -/
def minuendLeft (t : Tree α) (ts : List (Tree α)) : Tree α :=
  match linearTerm? t with
  | some (x, c) =>
    if (coefficients x ts).isEmpty then t else normalTerm x ((coefficients x ts).foldl Scalar.sub c)
  | none => t

/-- The subtrahends that do not have the variable of the minuend. -/
def otherSubtrahends (t : Tree α) (ts : List (Tree α)) : List (Tree α) :=
  match linearTerms.name? t with
  | some x => linearTerms.others x ts
  | none => ts

variable {x : String} {c : α} {t : Tree α} {ts : List (Tree α)}

theorem name?_of_linearTerm? (h : linearTerm? t = some (x, c)) : linearTerms.name? t = some x := by
  show (linearTerm? t).map Prod.fst = some x
  rw [h]
  rfl

theorem name?_of_not_linear (h : linearTerm? t = none) : linearTerms.name? t = none := by
  show (linearTerm? t).map Prod.fst = none
  rw [h]
  rfl

/-- An operand has a coefficient for a variable if it is a linear term in it. -/
theorem isSome_coefficient? (x : String) (t : Tree α) :
    (coefficient? x t).isSome = (linearTerms.name? t == some x) := by
  cases hlinear : linearTerm? t with
  | none =>
    rw [coefficient?_eq_none hlinear, name?_of_not_linear hlinear]
    rfl
  | some term =>
    obtain ⟨y, c⟩ := term
    rw [coefficient?_of_linearTerm? hlinear, name?_of_linearTerm? hlinear]
    by_cases hxy : y = x
    · rw [if_pos hxy, hxy]
      exact (beq_self_eq_true _).symm
    · rw [if_neg hxy]
      exact (beq_eq_false_iff_ne.2 fun h => hxy (Option.some.inj h)).symm

/-- There are as many coefficients of a variable as linear terms in it. -/
theorem length_coefficients (x : String) (ts : List (Tree α)) :
    (coefficients x ts).length = (linearTerms.named x ts).length := by
  rw [coefficients, List.length_filterMap_eq_countP, Grouping.named, ← List.countP_eq_length_filter]
  exact List.countP_congr fun t _ => by rw [isSome_coefficient?]

/-- The other operands have no coefficient for the variable. -/
theorem coefficients_named (x : String) (ts : List (Tree α)) :
    coefficients x (linearTerms.named x ts) = coefficients x ts := by
  rw [coefficients, coefficients, Grouping.named, List.filterMap_filter]
  refine List.filterMap_congr fun t _ => ?_
  rw [← isSome_coefficient?]
  cases coefficient? x t <;> rfl

/-- What the rule leaves of the rest are the operands with other names. -/
theorem withoutTerms_eq (x : String) (ts : List (Tree α)) :
    withoutTerms x ts = linearTerms.others x ts := by
  refine List.filter_congr fun t _ => ?_
  rw [bne, ← isSome_coefficient?]
  cases coefficient? x t <;> rfl

/-- No linear term in a variable means no coefficient of it. -/
theorem named_eq_nil_iff : linearTerms.named x ts = [] ↔ coefficients x ts = [] := by
  rw [← List.length_eq_zero_iff, ← List.length_eq_zero_iff, length_coefficients]

/-- The rule starts its sum with the first coefficient, and so does the sum of all. -/
theorem join_linearTerms (h : linearTerm? t = some (x, c)) (ts : List (Tree α)) :
    linearTerms.join x (t :: linearTerms.named x ts) =
      normalTerm x ((coefficients x ts).foldl Scalar.add c) := by
  have hcoefficients : coefficients x (t :: linearTerms.named x ts) = c :: coefficients x ts := by
    rw [coefficients_cons, coefficient?_of_linearTerm? h, if_pos rfl, coefficients_named]
    rfl
  show normalTerm x (sumOf _) = _
  rw [hcoefficients]
  rfl

/-- What is no linear term has no name, so none behind it has the same. -/
theorem single_of_not_linear (h : linearTerm? t = none) :
    ∀ x, linearTerms.name? t = some x → linearTerms.named x ts = [] := by
  intro x hx
  rw [name?_of_not_linear h] at hx
  cases hx

/-- A linear term with no coefficient of its variable behind it has nothing in common with those. -/
theorem single_of_linearTerm? (h : linearTerm? t = some (x, c)) (hnil : coefficients x ts = []) :
    ∀ y, linearTerms.name? t = some y → linearTerms.named y ts = [] := by
  intro y hy
  rw [name?_of_linearTerm? h] at hy
  cases hy
  exact named_eq_nil_iff.2 hnil

/-- The terms of a sum are put together in their groups. -/
theorem mergeTerms_eq (ts : List (Tree α)) : mergeTerms ts = linearTerms.collected ts := by
  fun_induction mergeTerms ts with
  | case1 => rfl
  | case2 t ts hlinear ih => rw [ih, linearTerms.collected_single (single_of_not_linear hlinear)]
  | case3 t ts x c hlinear hnil ih =>
    rw [ih, linearTerms.collected_single (single_of_linearTerm? hlinear hnil)]
  | case4 t ts x c hlinear hcs ih =>
    rw [ih, withoutTerms_eq, linearTerms.collected_repeated (name?_of_linearTerm? hlinear)
      (fun h => hcs (named_eq_nil_iff.1 h)), join_linearTerms hlinear]

/-- Subtrahends in groups are put together apart from the others. -/
theorem splitTerms_eq (ts : List (Tree α)) :
    splitTerms ts = (linearTerms.joints ts, linearTerms.alone ts) := by
  fun_induction splitTerms ts with
  | case1 => rfl
  | case2 t ts hlinear ih =>
    have hsingle : ∀ x, linearTerms.name? t = some x → linearTerms.named x ts = [] :=
      single_of_not_linear hlinear
    rw [ih, linearTerms.joints_single hsingle, linearTerms.alone_single hsingle]
  | case3 t ts x c hlinear hnil ih =>
    have hsingle := single_of_linearTerm? hlinear hnil
    rw [ih, linearTerms.joints_single hsingle, linearTerms.alone_single hsingle]
  | case4 t ts x c hlinear hcs ih =>
    have hname := name?_of_linearTerm? hlinear
    have hrepeated : linearTerms.named x ts ≠ [] := fun h => hcs (named_eq_nil_iff.1 h)
    rw [ih, withoutTerms_eq, linearTerms.joints_repeated hname hrepeated,
      linearTerms.alone_repeated hname hrepeated, join_linearTerms hlinear]

/-- What the rule makes of the minuend and the subtrahends, said of all of them at once. -/
theorem reduceMinuend_eq (t : Tree α) (ts : List (Tree α)) :
    reduceMinuend t ts = (minuendLeft t ts, otherSubtrahends t ts) := by
  fun_cases reduceMinuend t ts with
  | case1 hlinear => rw [minuendLeft, otherSubtrahends, name?_of_not_linear hlinear, hlinear]
  | case2 x c hlinear hnil =>
    rw [minuendLeft, otherSubtrahends, name?_of_linearTerm? hlinear, hlinear]
    dsimp only
    rw [hnil, linearTerms.others_eq_self (named_eq_nil_iff.2 hnil)]
    rfl
  | case3 x c hlinear hcs =>
    rw [minuendLeft, otherSubtrahends, name?_of_linearTerm? hlinear, hlinear]
    dsimp only
    rw [if_neg fun h => hcs (List.isEmpty_iff.1 h), withoutTerms_eq]

/-- The groups among the subtrahends come before those that are alone. -/
theorem mergeDifference_eq (t : Tree α) (ts : List (Tree α)) :
    mergeDifference t ts = minuendLeft t ts ::
      (linearTerms.joints (otherSubtrahends t ts) ++
        linearTerms.alone (otherSubtrahends t ts)) := by
  rw [mergeDifference, reduceMinuend_eq, splitTerms_eq]

/-- A minuend without like terms among the subtrahends takes none of them in. -/
theorem reduceMinuend_single
    (hsingle : ∀ x, linearTerms.name? t = some x → linearTerms.named x ts = []) :
    reduceMinuend t ts = (t, ts) := by
  fun_cases reduceMinuend t ts with
  | case1 hlinear => rfl
  | case2 x c hlinear hnil => rfl
  | case3 x c hlinear hcs =>
    exact absurd (named_eq_nil_iff.1 (hsingle x (name?_of_linearTerm? hlinear))) hcs

/-- With no two terms in one variable a difference stays as it is. -/
theorem mergeDifference_distinct (hdistinct : ∀ x, (linearTerms.named x (t :: ts)).length < 2) :
    mergeDifference t ts = t :: ts := by
  have hsubtrahends : ∀ x, (linearTerms.named x ts).length < 2 := fun x =>
    lt_of_le_of_lt ((List.sublist_cons_self t ts).filter _).length_le (hdistinct x)
  rw [mergeDifference, reduceMinuend_single (linearTerms.single_of_distinct hdistinct),
    splitTerms_eq]
  dsimp only
  rw [linearTerms.joints_distinct hsubtrahends, linearTerms.alone_distinct hsubtrahends]
  rfl

/-- Like terms make a sum shorter exactly if two of them have a variable in common. -/
theorem mergeTerms_shorter_iff :
    (mergeTerms ts).length < ts.length ↔ ∃ x, 2 ≤ (linearTerms.named x ts).length := by
  refine linearTerms.shorter_iff (fun hdistinct => ?_) fun hlong x => ?_
  · rw [mergeTerms_eq, linearTerms.collected_distinct hdistinct]
  · rw [← length_coefficients]
    exact terms_of_mergeTerms hlong x

/-- The minuend counts as well: a difference gets shorter if it has its variable in common with a
subtrahend. -/
theorem mergeDifference_shorter_iff :
    (mergeDifference t ts).length < (t :: ts).length ↔
      ∃ x, 2 ≤ (linearTerms.named x (t :: ts)).length := by
  refine linearTerms.shorter_iff mergeDifference_distinct fun hlong x => ?_
  rw [← length_coefficients]
  exact terms_of_mergeDifference hlong x

end Terms

/-! ## Like factors -/

section Factors

variable [Scalar α]

/-- Factors that are one variable go together, and become a power of it. -/
def variableFactors : Grouping α where
  name?
    | .var x => some x
    | _ => none
  join x ts := .node (.nary .pow) [.var x, .num (Scalar.ofNat ts.length)]

variable {x : String} {t : Tree α} {ts : List (Tree α)}

/-- A factor is the variable if that is its name. -/
theorem isVariable_eq (x : String) (t : Tree α) :
    isVariable x t = (variableFactors.name? t == some x) := by
  cases t with
  | num a => rfl
  | var y => rfl
  | node op ts => rfl

theorem countP_isVariable (x : String) (ts : List (Tree α)) :
    ts.countP (isVariable x) = (variableFactors.named x ts).length := by
  rw [Grouping.named, ← List.countP_eq_length_filter]
  exact List.countP_congr fun t _ => by rw [isVariable_eq]

theorem withoutVariable_eq (x : String) (ts : List (Tree α)) :
    withoutVariable x ts = variableFactors.others x ts :=
  List.filter_congr fun t _ => congrArg not (isVariable_eq x t)

/-- Factors that are one variable are put together in their groups. -/
theorem mergeFactors_eq (ts : List (Tree α)) : mergeFactors ts = variableFactors.collected ts := by
  fun_induction mergeFactors ts with
  | case1 => rfl
  | case2 x ts hcount ih =>
    rw [countP_isVariable] at hcount
    have hsingle : ∀ y, variableFactors.name? (.var x : Tree α) = some y →
        variableFactors.named y ts = [] := by
      rintro y ⟨⟩
      exact List.length_eq_zero_iff.1 hcount
    rw [ih, variableFactors.collected_single hsingle]
  | case3 x ts n hcount ih =>
    rw [countP_isVariable] at hcount
    -- the count says that the name comes again, so here a power is put together
    have hrepeated : variableFactors.named x ts ≠ [] := by
      intro hnil
      rw [hnil] at hcount
      cases hcount
    have hjoin : variableFactors.join x (.var x :: variableFactors.named x ts) =
        .node (.nary .pow) [.var x, .num (Scalar.ofNat (n + 2))] := by
      show Tree.node (.nary .pow) [.var x, .num (Scalar.ofNat (_ + 1))] = _
      rw [hcount]
    rw [ih, withoutVariable_eq, variableFactors.collected_repeated rfl hrepeated, hjoin]
  | case4 t ts hvar ih =>
    have hsingle : ∀ y, variableFactors.name? t = some y → variableFactors.named y ts = [] := by
      intro y hy
      have hisVariable : isVariable y t = true := by
        rw [isVariable_eq, hy]
        exact beq_self_eq_true _
      exact absurd (eq_var_of_isVariable hisVariable) (hvar y)
    rw [ih, variableFactors.collected_single hsingle]

/-- Like factors make a product shorter exactly if a variable is a factor twice. -/
theorem mergeFactors_shorter_iff :
    (mergeFactors ts).length < ts.length ↔ ∃ x, 2 ≤ (variableFactors.named x ts).length := by
  refine variableFactors.shorter_iff (fun hdistinct => ?_) fun hlong x => ?_
  · rw [mergeFactors_eq, variableFactors.collected_distinct hdistinct]
  · rw [← countP_isVariable]
    exact factors_of_mergeFactors hlong x

end Factors

/-! ## The rules -/

section Rules

variable [Scalar α]

/-- The rule for sums applies if two terms have a variable in common, and makes of them what the
grouping says. -/
theorem combineTerms_iff {u u' : Tree α} :
    combineTerms u = some u' ↔
      ∃ ts, u = .node (.nary .add) ts ∧ (∃ x, 2 ≤ (linearTerms.named x ts).length) ∧
        u' = .node (.nary .add) (linearTerms.collected ts) := by
  simp only [combineTerms_eq_some, mergeTerms_shorter_iff]
  simp only [mergeTerms_eq]

/-- The rule for differences: the minuend loses what it has in common, then the groups of the other
subtrahends, then those left alone. -/
theorem subtractTerms_iff {u u' : Tree α} :
    subtractTerms u = some u' ↔
      ∃ t ts, u = .node (.nary .sub) (t :: ts) ∧
        (∃ x, 2 ≤ (linearTerms.named x (t :: ts)).length) ∧
        u' = .node (.nary .sub) (minuendLeft t ts ::
          (linearTerms.joints (otherSubtrahends t ts) ++
            linearTerms.alone (otherSubtrahends t ts))) := by
  simp only [subtractTerms_eq_some, mergeDifference_shorter_iff]
  simp only [mergeDifference_eq]

/-- The rule for products applies if a variable is a factor twice, and makes powers as the grouping
says. -/
theorem combineFactors_iff {u u' : Tree α} :
    combineFactors u = some u' ↔
      ∃ ts, u = .node (.nary .mul) ts ∧ (∃ x, 2 ≤ (variableFactors.named x ts).length) ∧
        u' = .node (.nary .mul) (variableFactors.collected ts) := by
  simp only [combineFactors_eq_some, mergeFactors_shorter_iff]
  simp only [mergeFactors_eq]

/-- A rule for like terms or factors applies to the operator it is for if two or more of the
operands have a variable in common, and else to nothing. It keeps the others as they are and in
order. Terms of a sum and factors of a product are put together where the first of them stood. A
minuend loses the subtrahends with its variable; of those left, the ones that go together come
before the rest. -/
theorem collections_iff (u u' : Tree α) :
    (combineTerms u = some u' ↔
        ∃ ts, u = .node (.nary .add) ts ∧ (∃ x, 2 ≤ (linearTerms.named x ts).length) ∧
          u' = .node (.nary .add) (linearTerms.collected ts)) ∧
      (subtractTerms u = some u' ↔
        ∃ t ts, u = .node (.nary .sub) (t :: ts) ∧
          (∃ x, 2 ≤ (linearTerms.named x (t :: ts)).length) ∧
          u' = .node (.nary .sub) (minuendLeft t ts ::
            (linearTerms.joints (otherSubtrahends t ts) ++
              linearTerms.alone (otherSubtrahends t ts)))) ∧
      (combineFactors u = some u' ↔
        ∃ ts, u = .node (.nary .mul) ts ∧ (∃ x, 2 ≤ (variableFactors.named x ts).length) ∧
          u' = .node (.nary .mul) (variableFactors.collected ts)) :=
  ⟨combineTerms_iff, subtractTerms_iff, combineFactors_iff⟩

/-- What `a * b * a * a` becomes. -/
example : variableFactors.collected [.var "a", .var "b", .var "a", (.var "a" : Tree α)] =
    [.node (.nary .pow) [.var "a", .num (Scalar.ofNat 3)], .var "b"] := by
  rfl

end Rules

end Fluxion.Simplify

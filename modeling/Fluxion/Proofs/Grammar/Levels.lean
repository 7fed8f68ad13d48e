import Fluxion.Proofs.Grammar.Phrase

/-!
# Where an operator may attach

An assignment is an operand, and its value takes in whatever follows. So while an expression is
read, several are open at once, one inside the other: in `a ^ x = b < c` the value of `x`, and the
whole. An operator that comes next may attach to any of them, and closes those inside. An open
expression is a `Level`: it takes any number of the operators `+ - * /`, one comparison, and one
exponent after each operand.

A reader that goes from left to right attaches every operator to the innermost level that takes it.
`Runs` are the lists of tokens that it gets through. The theorem is that it gets through every
expression of the grammar, however the operators are attached there (`Expression.runs`). The reason
is that attaching further in leaves more slots open, and that with more slots open no fewer lists
are got through (`Runs.mono`): a slot for an exponent, a slot for a comparison, and the level
itself, in the order from the innermost on, and one list of slots serves for another if it contains
it.
-/

namespace Fluxion.Grammar

/-- An open expression: whether it takes a comparison, and whether it takes an exponent. -/
structure Level where
  compares : Bool
  raises : Bool

namespace Level

/-- An expression of which nothing is read. -/
def fresh : Level := ⟨true, true⟩

/-- The levels left by an exponent. -/
def raise : List Level → Option (List Level)
  | [] => none
  | ⟨c, true⟩ :: s => some (⟨c, false⟩ :: s)
  | ⟨_, false⟩ :: s => raise s

/-- The levels left by a comparison. -/
def compare : List Level → Option (List Level)
  | [] => none
  | ⟨true, _⟩ :: s => some (⟨false, true⟩ :: s)
  | ⟨false, _⟩ :: s => compare s

/-- The levels left by an operator that makes room for another exponent. -/
def join : List Level → Option (List Level)
  | [] => none
  | ⟨c, _⟩ :: s => some (⟨c, true⟩ :: s)

/-- The levels left by an operator, the innermost first. -/
def attach : Punct → List Level → Option (List Level)
  | .caret => raise
  | .plus | .minus | .star | .slash => join
  | .less | .greater | .tilde => compare
  | _ => fun _ => none

/-- What the levels still take. -/
inductive Slot where
  | exponent
  | comparison
  | level

/-- The slots of open levels, from the innermost on. -/
def slots : List Level → List Slot
  | [] => []
  | ⟨c, r⟩ :: s =>
    (if r then [.exponent] else []) ++ ((if c then [.comparison] else []) ++ .level :: slots s)

/-- The slots of `s` are among those of `s'`, in the same order. -/
def Covers (s' s : List Level) : Prop := (slots s).Sublist (slots s')

variable {s s' u : List Level} {c c' r r' : Bool} {mark : Punct}

theorem Covers.refl (s : List Level) : Covers s s := List.Sublist.refl _

/-- A list that goes on from the first occurrence of an element contains one that goes on from some
occurrence. -/
theorem sublist_of_first {x : Slot} {v v' pre' : List Slot} (hx : x ∉ pre')
    (h : (x :: v).Sublist (pre' ++ x :: v')) : v.Sublist v' := by
  induction pre' with
  | nil => exact List.cons_sublist_cons.1 h
  | cons y pre' ih =>
    rw [List.mem_cons, not_or] at hx
    cases h with
    | cons _ h => exact ih hx.2 h
    | cons_cons => exact (hx.1 rfl).elim

/-- An exponent takes the first slot for one, and all slots inside are closed. -/
theorem raise_slots (s : List Level) :
    (raise s = none ∧ .exponent ∉ slots s) ∨
      ∃ u pre, raise s = some u ∧ slots s = pre ++ .exponent :: slots u ∧ .exponent ∉ pre := by
  induction s with
  | nil => exact Or.inl ⟨rfl, List.not_mem_nil⟩
  | cons l s ih =>
    obtain ⟨c, r⟩ := l
    cases r with
    | true => exact Or.inr ⟨_, [], rfl, rfl, List.not_mem_nil⟩
    | false =>
      rcases ih with ⟨hnone, hmem⟩ | ⟨u, pre, hsome, hslots, hpre⟩
      · refine Or.inl ⟨hnone, ?_⟩
        cases c <;> simp [slots, hmem]
      · refine Or.inr ⟨u, slots [⟨c, false⟩] ++ pre, hsome, ?_, ?_⟩
        · cases c <;> simp [slots, hslots]
        · cases c <;> simp [slots, hpre]

/-- A comparison takes the first slot for one, and leaves room for an exponent at its level. -/
theorem compare_slots (s : List Level) :
    (compare s = none ∧ .comparison ∉ slots s) ∨
      ∃ u pre, compare s = some (⟨false, true⟩ :: u) ∧
        slots s = pre ++ .comparison :: .level :: slots u ∧ .comparison ∉ pre := by
  induction s with
  | nil => exact Or.inl ⟨rfl, List.not_mem_nil⟩
  | cons l s ih =>
    obtain ⟨c, r⟩ := l
    cases c with
    | true =>
      refine Or.inr ⟨s, slots [⟨false, r⟩] |>.dropLast, rfl, ?_, ?_⟩
      · cases r <;> simp [slots]
      · cases r <;> simp [slots]
    | false =>
      rcases ih with ⟨hnone, hmem⟩ | ⟨u, pre, hsome, hslots, hpre⟩
      · refine Or.inl ⟨hnone, ?_⟩
        cases r <;> simp [slots, hmem]
      · refine Or.inr ⟨u, slots [⟨false, r⟩] ++ pre, hsome, ?_, ?_⟩
        · cases r <;> simp [slots, hslots]
        · cases r <;> simp [slots, hpre]

/-- With more slots open an exponent can still be taken, and no fewer slots are left. -/
theorem Covers.raise (h : Covers s' s) (hu : Level.raise s = some u) :
    ∃ u', Level.raise s' = some u' ∧ Covers u' u := by
  rcases raise_slots s with ⟨hnone, -⟩ | ⟨_, pre, hsome, hslots, -⟩
  · rw [hnone] at hu
    exact nomatch hu
  rw [hsome] at hu
  cases hu
  have htail : (Slot.exponent :: slots u).Sublist (slots s') := by
    refine List.Sublist.trans ?_ h
    rw [hslots]
    exact List.sublist_append_right ..
  rcases raise_slots s' with ⟨-, hmem⟩ | ⟨u', pre', hsome', hslots', hpre'⟩
  · exact (hmem (htail.subset List.mem_cons_self)).elim
  rw [hslots'] at htail
  exact ⟨u', hsome', sublist_of_first hpre' htail⟩

/-- With more slots open a comparison can still be taken, and no fewer slots are left. -/
theorem Covers.compare (h : Covers s' s) (hu : Level.compare s = some u) :
    ∃ u', Level.compare s' = some u' ∧ Covers u' u := by
  rcases compare_slots s with ⟨hnone, -⟩ | ⟨v, pre, hsome, hslots, -⟩
  · rw [hnone] at hu
    exact nomatch hu
  rw [hsome] at hu
  cases hu
  have htail : (Slot.comparison :: .level :: slots v).Sublist (slots s') := by
    refine List.Sublist.trans ?_ h
    rw [hslots]
    exact List.sublist_append_right ..
  rcases compare_slots s' with ⟨-, hmem⟩ | ⟨v', pre', hsome', hslots', hpre'⟩
  · exact (hmem (htail.subset List.mem_cons_self)).elim
  rw [hslots'] at htail
  exact ⟨_, hsome', (sublist_of_first hpre' htail).cons_cons _⟩

/-- Whether the innermost exponent is taken does not matter to an operator that makes room. -/
theorem Covers.join (h : Covers s' s) (hu : Level.join s = some u) :
    ∃ u', Level.join s' = some u' ∧ Covers u' u := by
  cases s with
  | nil => exact nomatch hu
  | cons l s =>
    obtain ⟨c, r⟩ := l
    cases hu
    cases s' with
    | nil => cases c <;> cases r <;> exact nomatch h
    | cons l' s' =>
      obtain ⟨c', r'⟩ := l'
      have hopen : (slots (⟨c, false⟩ :: s)).Sublist (slots (⟨c', r'⟩ :: s')) :=
        List.Sublist.trans (List.sublist_append_right ..) h
      refine ⟨_, rfl, List.Sublist.cons_cons _ ?_⟩
      cases r' with
      | false => exact hopen
      | true =>
        -- the first slot of `s` is none for an exponent, so that of `s'` is not needed
        cases c with
        | true => cases hopen with | cons _ hopen => exact hopen
        | false => cases hopen with | cons _ hopen => exact hopen

/-- Whatever the operator is, no fewer slots are left if there were no fewer before. -/
theorem Covers.attach (h : Covers s' s) (hu : Level.attach mark s = some u) :
    ∃ u', Level.attach mark s' = some u' ∧ Covers u' u := by
  cases mark <;>
    first
    | exact h.raise hu
    | exact h.join hu
    | exact h.compare hu
    | exact nomatch hu

/-- An exponent that is taken leaves fewer slots. -/
theorem covers_taken (c : Bool) (s : List Level) : Covers (⟨c, true⟩ :: s) (⟨c, false⟩ :: s) :=
  List.sublist_append_right ..

/-- Levels outside leave fewer slots. -/
theorem covers_tail (l : Level) (s : List Level) : Covers (l :: s) s :=
  List.Sublist.trans (List.sublist_append_right [.level] _)
    (List.Sublist.trans (List.sublist_append_right ..) (List.sublist_append_right ..))

theorem Covers.cons (l : Level) (h : Covers s' s) : Covers (l :: s') (l :: s) :=
  (List.Sublist.refl _).append ((List.Sublist.refl _).append (List.Sublist.cons_cons _ h))

end Level

open Level

/-- Whether an operand comes next, or an operator. -/
inductive Turn where
  | operand
  | operator

/-- What a reader gets through that attaches each operator to the innermost level that takes it. In
brackets it starts anew. -/
inductive Runs : Turn → List Level → List Token → Prop
  | stop {s : List Level} : Runs .operator s []
  | attach {s u : List Level} {mark : Punct} {o : Token} {w : List Token} :
      o.kind = .punct mark → attach mark s = some u → Runs .operand u w → Runs .operator s (o :: w)
  | parenthesized {s : List Level} {l r : Token} {v w : List Token} :
      l.kind = .punct .openParen → Runs .operand [fresh] v → r.kind = .punct .closeParen →
      Runs .operator s w → Runs .operand s (l :: (v ++ r :: w))
  | assignment {s : List Level} {name eq : Token} {w : List Token} :
      name.IsIdentifier → eq.kind = .punct .equals → Runs .operand (fresh :: s) w →
      Runs .operand s (name :: eq :: w)
  | unsigned {s : List Level} {o : Token} {w : List Token} :
      o.isNumber = true → Runs .operator s w → Runs .operand s (o :: w)
  | negative {s : List Level} {sign o : Token} {w : List Token} :
      sign.kind = .punct .minus → o.isNumber = true → sign.stop = o.start →
      Runs .operator s w → Runs .operand s (sign :: o :: w)
  | call {s : List Level} {name l r : Token} {w : List Token} :
      name.IsIdentifier → l.kind = .punct .openParen → r.kind = .punct .closeParen →
      Runs .operator s w → Runs .operand s (name :: l :: r :: w)
  | callWith {s : List Level} {name l r : Token} {v w : List Token}
      {more : List (Token × List Token)} :
      name.IsIdentifier → l.kind = .punct .openParen → Runs .operand [fresh] v →
      (∀ item ∈ more, item.1.kind = .punct .comma) →
      (∀ item ∈ more, Runs .operand [fresh] item.2) → r.kind = .punct .closeParen →
      Runs .operator s w →
      Runs .operand s (name :: l :: (v ++ (more.flatMap (fun item => item.1 :: item.2) ++ r :: w)))
  | name {s : List Level} {name : Token} {w : List Token} :
      name.IsIdentifier → Runs .operator s w → Runs .operand s (name :: w)

/-- With more slots no less is got through. -/
theorem Runs.mono {turn : Turn} {s s' : List Level} {w : List Token} (h : Runs turn s w)
    (hs : Covers s' s) : Runs turn s' w := by
  induction h generalizing s' with
  | stop => exact .stop
  | attach ho hu _ ih =>
    obtain ⟨u', hu', hcovers⟩ := hs.attach hu
    exact .attach ho hu' (ih hcovers)
  | parenthesized hl hv hr _ _ ih => exact .parenthesized hl hv hr (ih hs)
  | assignment hname heq _ ih => exact .assignment hname heq (ih (hs.cons fresh))
  | unsigned ho _ ih => exact .unsigned ho (ih hs)
  | negative hsign ho hstop _ ih => exact .negative hsign ho hstop (ih hs)
  | call hname hl hr _ ih => exact .call hname hl hr (ih hs)
  | callWith hname hl hv hcommas hmore hr _ _ _ ih =>
    exact .callWith hname hl hv hcommas hmore hr (ih hs)
  | name hname _ ih => exact .name hname (ih hs)

/-- All operators but `^` leave room for another operand of a power. -/
theorem attach_of_ne_pow {op : NaryOp} (h : op ≠ .pow) : attach op.mark = join := by
  cases op with
  | add | sub | mul | div => rfl
  | pow => exact absurd rfl h

theorem attach_relation (r : Relation) : attach r.mark = compare := by
  cases r <;> rfl

/-- Any operator but `^` and the operand after it are got through where a power may be finished. -/
theorem Runs.chain {op : NaryOp} {o : Token} {w : List Token} {s : List Level} {c : Bool}
    (hop : op ≠ .pow)
    (ho : o.kind = .punct op.mark) (h : Runs .operand (⟨c, true⟩ :: s) w) :
    Runs .operator (⟨c, false⟩ :: s) (o :: w) := by
  refine Runs.attach ho ?_ h
  rw [attach_of_ne_pow hop]
  rfl

end Fluxion.Grammar

namespace Fluxion.Phrase

open Grammar Grammar.Level

variable {α : Type} [Literal α]

-- Each class of phrases is got through together with any continuation `x` of it. The levels before
-- `x` are those where nothing inside the phrase is open; more may be open, by `Runs.mono`.
mutual

/-- A reader gets through an expression with a fresh level for it, if it gets through what follows.
-/
theorem Expression.runs {s : List Level} {w x : List Token} {t : Tree α} :
    Expression w t → Runs .operator s x → Runs .operand (fresh :: s) (w ++ x)
  | .sum h, hx => h.runs (hx.mono (covers_tail ..))
  | .comparison (o := o) (r := r) h ho h', hx => by
    rw [List.append_assoc]
    refine h.runs (Runs.attach (u := ⟨false, true⟩ :: s) ho ?_ ?_)
    · rw [attach_relation]
      rfl
    · exact h'.runs (hx.mono (covers_tail ..))

/-- A sum needs the slot for an exponent only up to its end. -/
theorem Sum.runs {s : List Level} {c : Bool} {last : Option NaryOp} {w x : List Token}
    {t : Tree α} : Sum last w t → Runs .operator (⟨c, false⟩ :: s) x →
    Runs .operand (⟨c, true⟩ :: s) (w ++ x)
  | .single h, hx => h.runs hx
  | .extend hop h ho h', hx => by
    rw [List.append_assoc]
    exact h.runs (.chain (ne_pow_of_additive hop) ho (h'.runs hx))
  | .wrap hop h _ ho h', hx => by
    rw [List.append_assoc]
    exact h.runs (.chain (ne_pow_of_additive hop) ho (h'.runs hx))

theorem Product.runs {s : List Level} {c : Bool} {last : Option NaryOp} {w x : List Token}
    {t : Tree α} : Product last w t → Runs .operator (⟨c, false⟩ :: s) x →
    Runs .operand (⟨c, true⟩ :: s) (w ++ x)
  | .single h, hx => h.runs hx
  | .extend hop h ho h', hx => by
    rw [List.append_assoc]
    exact h.runs (.chain (ne_pow_of_multiplicative hop) ho (h'.runs hx))
  | .wrap hop h _ ho h', hx => by
    rw [List.append_assoc]
    exact h.runs (.chain (ne_pow_of_multiplicative hop) ho (h'.runs hx))

/-- A power takes the slot for an exponent that it was given, or leaves it. -/
theorem Power.runs {s : List Level} {c : Bool} {w x : List Token} {t : Tree α} :
    Power w t → Runs .operator (⟨c, false⟩ :: s) x → Runs .operand (⟨c, true⟩ :: s) (w ++ x)
  | .part h, hx => h.runs (hx.mono (covers_taken c s))
  | .raised h ho h', hx => by
    rw [List.append_assoc]
    exact h.runs (Runs.attach (u := ⟨c, false⟩ :: s) ho rfl (h'.runs hx))

theorem Part.runs {s : List Level} {w x : List Token} {t : Tree α} :
    Part w t → Runs .operator s x → Runs .operand s (w ++ x)
  | .parenthesized hl h hr, hx => by
    rw [List.cons_append, List.append_assoc]
    refine Runs.parenthesized hl ?_ hr hx
    have := h.runs (Runs.stop (s := []))
    rwa [List.append_nil] at this
  | .assignment hname heq h, hx => Runs.assignment hname heq (h.runs hx)
  | .number (.unsigned ho), hx => Runs.unsigned ho hx
  | .number (.negative hsign ho hstop), hx => Runs.negative hsign ho hstop hx
  | .func hname _ h, hx => h.runs hname hx
  | .call hname _ h, hx => h.runs hname hx
  | .name hname, hx => Runs.name hname hx

theorem Arguments.runs {s : List Level} {name : Token} {w x : List Token} {ts : List (Tree α)} :
    Arguments w ts → name.IsIdentifier → Runs .operator s x → Runs .operand s (name :: (w ++ x))
  | .none hl hr, hname, hx => Runs.call hname hl hr hx
  | .some hl h h' hr, hname, hx => by
    obtain ⟨more, rfl, hcommas, hmore⟩ := h'.runs
    have hfirst := h.runs (Runs.stop (s := []))
    rw [List.append_nil] at hfirst
    simpa using Runs.callWith hname hl hfirst hcommas hmore hr hx

/-- Arguments are got through one by one, each with a fresh level. -/
theorem MoreArguments.runs {w : List Token} {ts : List (Tree α)} :
    MoreArguments w ts → ∃ more : List (Token × List Token),
      w = more.flatMap (fun item => item.1 :: item.2) ∧
      (∀ item ∈ more, item.1.kind = .punct .comma) ∧
      ∀ item ∈ more, Runs .operand [fresh] item.2
  | .nil => ⟨[], rfl, by simp, by simp⟩
  | @MoreArguments.cons _ _ comma v _ _ _ hcomma h h' => by
    obtain ⟨more, rfl, hcommas, hmore⟩ := h'.runs
    have hfirst := h.runs (Runs.stop (s := []))
    rw [List.append_nil] at hfirst
    refine ⟨(comma, v) :: more, rfl, ?_, ?_⟩
    · simpa using ⟨hcomma, fun a b h => hcommas (a, b) h⟩
    · simpa using ⟨hfirst, fun a b h => hmore (a, b) h⟩

end

end Fluxion.Phrase

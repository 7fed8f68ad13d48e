import Fluxion.Proofs.Expr.Reals

/-!
# How formulas are read

The conventions of mathematics, as a grammar that gives the symbols of a formula a real value
(`Formula.Denotes`): brackets hold together, a superscript binds tightest, then the raised dot, then
plus and minus, and operators of one level associate to the left. A minus sign in front of a factor
binds no tighter than the raised dot. How far it reaches over factors that follow is left open:
`-2 · x` is read as the product of -2 and x and as the opposite of 2 · x.

However a formula is read, the value is the same (`Formula.Denotes.unique`). Reading it from left to
right, it takes three numbers to keep all that stands to the left of a factor: what it is added to,
what it is multiplied by with the sign, and the factor itself, which a superscript may still change.
-/

namespace Fluxion.Formula

/-- The symbols of formulas. `left` and `right` make the delimiter behind them grow. -/
inductive Symbol where
  | numeral (digits : String)
  | name (x : String)
  | func (f : Func)
  | frac | caret | cdot | plus | minus
  | left | right | openParen | closeParen
  | openBrace | closeBrace
  | other

/-- What a superscript, a raised dot and a plus sign stand between. -/
inductive Level where
  | sum | product | power | atom

/-- Symbols in braces. -/
def inBraces (w : List Symbol) : List Symbol := .openBrace :: (w ++ [.closeBrace])

/-- Symbols in parentheses. -/
def inParens (w : List Symbol) : List Symbol := .left :: .openParen :: (w ++ [.right, .closeParen])

/-- The symbols may be read as a sum, a product, a power or an atom of the given value, where `ν` is
the value of digits and `ρ` that of names. -/
inductive Denotes (ν ρ : String → ℝ) : Level → List Symbol → ℝ → Prop
  | numeral (s : String) : Denotes ν ρ .atom [.numeral s] (ν s)
  | name (x : String) : Denotes ν ρ .atom [.name x] (ρ x)
  | parens {w : List Symbol} {a : ℝ} :
      Denotes ν ρ .sum w a → Denotes ν ρ .atom (inParens w) a
  | func {w : List Symbol} {a : ℝ} (f : Func) :
      Denotes ν ρ .sum w a → Denotes ν ρ .atom (.func f :: inParens w) (f.apply a)
  | fraction {w w' : List Symbol} {a b : ℝ} :
      Denotes ν ρ .sum w a → Denotes ν ρ .sum w' b →
      Denotes ν ρ .atom (.frac :: (inBraces w ++ inBraces w')) (a / b)
  | raised {w w' : List Symbol} {a b : ℝ} :
      Denotes ν ρ .atom w a → Denotes ν ρ .sum w' b →
      Denotes ν ρ .power (w ++ .caret :: inBraces w') (a ^ b)
  | ofAtom {w : List Symbol} {a : ℝ} : Denotes ν ρ .atom w a → Denotes ν ρ .power w a
  | times {w w' : List Symbol} {a b : ℝ} :
      Denotes ν ρ .product w a → Denotes ν ρ .power w' b →
      Denotes ν ρ .product (w ++ .cdot :: w') (a * b)
  | negated {w : List Symbol} {a : ℝ} :
      Denotes ν ρ .product w a → Denotes ν ρ .product (.minus :: w) (-a)
  | timesNegated {w w' : List Symbol} {a b : ℝ} :
      Denotes ν ρ .product w a → Denotes ν ρ .product w' b →
      Denotes ν ρ .product (w ++ .cdot :: .minus :: w') (a * -b)
  | ofPower {w : List Symbol} {a : ℝ} : Denotes ν ρ .power w a → Denotes ν ρ .product w a
  | plus {w w' : List Symbol} {a b : ℝ} :
      Denotes ν ρ .sum w a → Denotes ν ρ .product w' b →
      Denotes ν ρ .sum (w ++ .plus :: w') (a + b)
  | minus {w w' : List Symbol} {a b : ℝ} :
      Denotes ν ρ .sum w a → Denotes ν ρ .product w' b →
      Denotes ν ρ .sum (w ++ .minus :: w') (a - b)
  | ofProduct {w : List Symbol} {a : ℝ} : Denotes ν ρ .product w a → Denotes ν ρ .sum w a

namespace Denotes

variable {ν ρ : String → ℝ} {w w' : List Symbol} {a b : ℝ}

/-- A product as the last factor of another is read factor by factor. -/
theorem timesProduct (h : Denotes ν ρ .product w a) (h' : Denotes ν ρ .product w' b) :
    Denotes ν ρ .product (w ++ .cdot :: w') (a * b) := by
  generalize hlevel : Level.product = level at h'
  induction h' with
  | ofPower h' => exact times h h'
  | negated h' => exact timesNegated h h'
  | times _ h' ih =>
    rw [← mul_assoc, ← List.cons_append, ← List.append_assoc]
    exact times (ih rfl) h'
  | timesNegated _ h' ih =>
    rw [← mul_assoc, ← List.cons_append, ← List.append_assoc]
    exact timesNegated (ih rfl) h'
  | _ => cases hlevel

/-- A sum as the last term of another is read term by term. -/
theorem plusSum (h : Denotes ν ρ .sum w a) (h' : Denotes ν ρ .sum w' b) :
    Denotes ν ρ .sum (w ++ .plus :: w') (a + b) := by
  generalize hlevel : Level.sum = level at h'
  induction h' with
  | ofProduct h' => exact plus h h'
  | plus _ h' ih =>
    rw [← add_assoc, ← List.cons_append, ← List.append_assoc]
    exact plus (ih rfl) h'
  | minus _ h' ih =>
    rw [← add_sub_assoc, ← List.cons_append, ← List.append_assoc]
    exact minus (ih rfl) h'
  | _ => cases hlevel

end Denotes

/-! ## Reading from left to right -/

/-- What an open bracket is read for, with what stands to the left of it: `s` is added to the factor
that it belongs to, after `c` is multiplied by that factor. -/
inductive Frame where
  | parens (s c : ℝ)
  | func (f : Func) (s c : ℝ)
  | numerator (s c : ℝ)
  | denominator (s c a : ℝ)
  | exponent (s c a : ℝ)

/-- How far a formula has been read, inside of some brackets. -/
inductive State where
  /-- A factor is due. -/
  | due (s c : ℝ) (frames : List Frame)
  /-- A bracket is due. -/
  | bracketDue (frame : Frame) (frames : List Frame)
  /-- The factor `a` has been read. -/
  | complete (s c a : ℝ) (frames : List Frame)
  | stuck

/-- What follows a bracket in which the value `a` has been read. -/
noncomputable def Frame.close (a : ℝ) (frames : List Frame) : Frame → State
  | parens s c => .complete s c a frames
  | func f s c => .complete s c (f.apply a) frames
  | numerator s c => .bracketDue (.denominator s c a) frames
  | denominator s c b => .complete s c (b / a) frames
  | exponent s c b => .complete s c (b ^ a) frames

/-- One symbol is read. -/
noncomputable def step (ν ρ : String → ℝ) : State → Symbol → State
  | .due s c frames, .numeral digits => .complete s c (ν digits) frames
  | .due s c frames, .name x => .complete s c (ρ x) frames
  | .due s c frames, .minus => .due s (-c) frames
  | .due s c frames, .left => .bracketDue (.parens s c) frames
  | .due s c frames, .func f => .bracketDue (.func f s c) frames
  | .due s c frames, .frac => .bracketDue (.numerator s c) frames
  | .bracketDue frame frames, .left => .bracketDue frame frames
  | .bracketDue frame frames, .openParen => .due 0 1 (frame :: frames)
  | .bracketDue frame frames, .openBrace => .due 0 1 (frame :: frames)
  | .complete s c a frames, .caret => .bracketDue (.exponent s c a) frames
  | .complete s c a frames, .cdot => .due s (c * a) frames
  | .complete s c a frames, .plus => .due (s + c * a) 1 frames
  | .complete s c a frames, .minus => .due (s + c * a) (-1) frames
  | .complete s c a frames, .right => .complete s c a frames
  | .complete s c a (frame :: frames), .closeParen => frame.close (s + c * a) frames
  | .complete s c a (frame :: frames), .closeBrace => frame.close (s + c * a) frames
  | _, _ => .stuck

section

variable (ν ρ : String → ℝ)

/-- Some symbols are read. -/
noncomputable def run (st : State) (w : List Symbol) : State := w.foldl (step ν ρ) st

theorem run_append (st : State) (w w' : List Symbol) :
    run ν ρ st (w ++ w') = run ν ρ (run ν ρ st w) w' := List.foldl_append

/-- Where reading from left to right gets to with symbols of the value `a`. Products may be gathered
in the multiplier, and sums in what is added. -/
def Reached : Level → List Symbol → ℝ → Prop
  | .atom, w, a | .power, w, a => ∀ s c frames,
      run ν ρ (.due s c frames) w = .complete s c a frames
  | .product, w, a => ∀ s c frames, ∃ c' a', c' * a' = c * a ∧
      run ν ρ (.due s c frames) w = .complete s c' a' frames
  | .sum, w, a => ∀ frames, ∃ s' c' a', s' + c' * a' = a ∧
      run ν ρ (.due 0 1 frames) w = .complete s' c' a' frames

end

section

variable {ν ρ : String → ℝ} {w : List Symbol} {a : ℝ}

/-- What stands in braces is read anew and then closed as its frame says. -/
theorem Reached.inBraces (h : Reached ν ρ .sum w a) (frame : Frame) (frames : List Frame) :
    run ν ρ (.bracketDue frame frames) (inBraces w) = frame.close a frames := by
  obtain ⟨s, c, a', rfl, hw⟩ := h (frame :: frames)
  show run ν ρ (.due 0 1 (frame :: frames)) (w ++ [.closeBrace]) = _
  rw [run_append, hw]
  rfl

/-- The same of parentheses, with the commands that make them large. -/
theorem Reached.inParens (h : Reached ν ρ .sum w a) (frame : Frame) (frames : List Frame) :
    run ν ρ (.bracketDue frame frames) (inParens w) = frame.close a frames := by
  obtain ⟨s, c, a', rfl, hw⟩ := h (frame :: frames)
  show run ν ρ (.due 0 1 (frame :: frames)) (w ++ [.right, .closeParen]) = _
  rw [run_append, hw]
  rfl

/-- Each way of reading symbols is followed from left to right. -/
theorem Denotes.reached {level : Level} (h : Denotes ν ρ level w a) :
    Reached ν ρ level w a := by
  induction h with
  | numeral digits =>
    intro s c frames
    rfl
  | name x =>
    intro s c frames
    rfl
  | parens _ ih =>
    intro s c frames
    exact ih.inParens (.parens s c) frames
  | func f _ ih =>
    intro s c frames
    exact ih.inParens (.func f s c) frames
  | @fraction w w' a b _ _ ih ih' =>
    intro s c frames
    show run ν ρ (.bracketDue (.numerator s c) frames)
      (Formula.inBraces w ++ Formula.inBraces w') = _
    rw [run_append, ih.inBraces]
    exact ih'.inBraces (.denominator s c a) frames
  | @raised w w' a b _ _ ih ih' =>
    intro s c frames
    rw [run_append, ih s c frames]
    exact ih'.inBraces (.exponent s c a) frames
  | ofAtom _ ih => exact ih
  | @times w w' a b _ _ ih ih' =>
    -- the factors so far are multiplied, and the next is kept apart for its superscript
    intro s c frames
    obtain ⟨c', a', hvalue, hw⟩ := ih s c frames
    refine ⟨c' * a', b, by rw [hvalue, mul_assoc], ?_⟩
    rw [run_append, hw]
    exact ih' s (c' * a') frames
  | @negated w a _ ih =>
    -- the sign is part of the multiplier, so it does not matter how many factors it reaches over
    intro s c frames
    obtain ⟨c', a', hvalue, hw⟩ := ih s (-c) frames
    exact ⟨c', a', by rw [hvalue, neg_mul_comm], hw⟩
  | @timesNegated w w' a b _ _ ih ih' =>
    intro s c frames
    obtain ⟨c', a', hvalue, hw⟩ := ih s c frames
    obtain ⟨c'', a'', hvalue', hw'⟩ := ih' s (-(c' * a')) frames
    refine ⟨c'', a'', by rw [hvalue', hvalue, neg_mul_comm, mul_assoc], ?_⟩
    rw [run_append, hw]
    exact hw'
  | @ofPower w a _ ih =>
    intro s c frames
    exact ⟨c, a, rfl, ih s c frames⟩
  | @plus w w' a b _ _ ih ih' =>
    -- all before the sign is one term now, and the multiplier starts anew
    intro frames
    obtain ⟨s, c, a', hvalue, hw⟩ := ih frames
    obtain ⟨c', b', hvalue', hw'⟩ := ih' (s + c * a') 1 frames
    refine ⟨s + c * a', c', b', by rw [hvalue, hvalue', one_mul], ?_⟩
    rw [run_append, hw]
    exact hw'
  | @minus w w' a b _ _ ih ih' =>
    intro frames
    obtain ⟨s, c, a', hvalue, hw⟩ := ih frames
    obtain ⟨c', b', hvalue', hw'⟩ := ih' (s + c * a') (-1) frames
    refine ⟨s + c * a', c', b', by rw [hvalue, hvalue', neg_one_mul, sub_eq_add_neg], ?_⟩
    rw [run_append, hw]
    exact hw'
  | @ofProduct w a _ ih =>
    intro frames
    obtain ⟨c, a', hvalue, hw⟩ := ih 0 1 frames
    exact ⟨0, c, a', by rw [hvalue, one_mul, zero_add], hw⟩

/-- However a formula is read, its value is the same. -/
theorem Denotes.unique {b : ℝ} (h : Denotes ν ρ .sum w a) (h' : Denotes ν ρ .sum w b) :
    a = b := by
  obtain ⟨s, c, x, rfl, hw⟩ := h.reached []
  obtain ⟨s', c', x', rfl, hw'⟩ := h'.reached []
  obtain ⟨rfl, rfl, rfl, -⟩ := State.complete.inj (hw.symm.trans hw')
  rfl

end

end Fluxion.Formula

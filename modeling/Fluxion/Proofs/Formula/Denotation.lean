import Fluxion.Proofs.Expr.Trees
import Fluxion.Proofs.Formula.Numbers
import Fluxion.Proofs.Formula.Symbols
import Fluxion.Tree.Latex

/-!
# What the formula of an expression denotes

The formula of an expression is read as its value (`Tree.latex_denotes`), whatever its names stand
for. The operands of an operator are read at the level that it takes them at, which is what the
parentheses are for: what is no sum is read as a product, and what binds tighter than a power as an
atom.

One operand is not: a constant with a minus sign that is the base of a power is written without
parentheses, and the sign is read last (`Tree.not_latex_denotes`).
-/

namespace Fluxion

/-- The expression with other constants. -/
def Expr.map {α β : Type} (f : α → β) : Expr α → Expr β
  | num a => num (f a)
  | var x => var x
  | nary op e es => nary op (e.map f) (es.map (map f))
  | func g e => func g (e.map f)

variable {α : Type}

namespace Formula

/-! ## Pieces with a value -/

section

variable (ν ρ : String → ℝ)

/-- Pieces of a formula that are read at a level. -/
def Reads (level : Level) (ps : List String) (a : ℝ) : Prop :=
  ∃ w, Denotes ν ρ level w a ∧ Spells ps w

end

section

variable {ν ρ : String → ℝ} {ps qs : List String} {a b : ℝ} {s : String}

theorem separates_openBrace : Separates "\x7b" [.openBrace] := separates_mark .openCurly rfl

theorem separates_closeBrace : Separates "\x7d" [.closeBrace] := separates_mark .closeCurly rfl

theorem Spells.inBraces {w : List Symbol} (h : Spells ps w) :
    Spells (Latex.inBraces ps) (inBraces w) :=
  .cons separates_openBrace (h.join separates_closeBrace .nil)

/-- Parentheses around pieces are two symbols on each side. -/
theorem Spells.inParens {w : List Symbol} (h : Spells ps w) :
    Spells (Latex.inParens ps) (inParens w) :=
  .cons separates_left (h.join separates_right .nil)

/-- A command stands before a bracket. -/
theorem Spells.command {w : List Symbol} (hword : ∀ c ∈ s.toList, c.isAlpha = true) {p : String}
    {v : List Symbol} (hp : Separates p v) (h : Spells ps w) :
    Spells (("\\" ++ s) :: p :: ps) (ofCommand s :: (v ++ w)) :=
  (spells_command hword).join hp h

theorem ofCommand_name (f : Func) : ofCommand f.name = .func f := by
  cases f <;> rfl

namespace Reads

/-- A number without a sign is an atom. -/
theorem numeral (h : IsNumeral s) : Reads ν ρ .atom [s] (ν s) :=
  ⟨_, .numeral s, spells_numeral h⟩

/-- A number with a minus sign is a product, as a sign in front of an operand is. -/
theorem negative (h : IsNumeral s) : Reads ν ρ .product ["-" ++ s] (-ν s) :=
  ⟨_, .negated (.ofPower (.ofAtom (.numeral s))), spells_negative h⟩

theorem name (h : IsWord s.toList) : Reads ν ρ .atom [s] (ρ s) :=
  ⟨_, .name s, spells_word h⟩

theorem ofAtom (h : Reads ν ρ .atom ps a) : Reads ν ρ .power ps a := by
  obtain ⟨w, hw, hs⟩ := h
  exact ⟨w, .ofAtom hw, hs⟩

theorem ofPower (h : Reads ν ρ .power ps a) : Reads ν ρ .product ps a := by
  obtain ⟨w, hw, hs⟩ := h
  exact ⟨w, .ofPower hw, hs⟩

theorem ofProduct (h : Reads ν ρ .product ps a) : Reads ν ρ .sum ps a := by
  obtain ⟨w, hw, hs⟩ := h
  exact ⟨w, .ofProduct hw, hs⟩

/-- In parentheses anything is an atom. -/
theorem parens (h : Reads ν ρ .sum ps a) : Reads ν ρ .atom (Latex.inParens ps) a := by
  obtain ⟨w, hw, hs⟩ := h
  exact ⟨inParens w, .parens hw, hs.inParens⟩

/-- A function takes what stands in parentheses behind its command. -/
theorem func (f : Func) (h : Reads ν ρ .sum ps a) :
    Reads ν ρ .atom (("\\" ++ f.name) :: Latex.inParens ps) (f.apply a) := by
  obtain ⟨w, hw, hs⟩ := h
  have hword : ∀ c ∈ f.name.toList, c.isAlpha = true := by
    cases f <;> exact List.all_eq_true.1 rfl
  have hspells := Spells.command hword separates_left (hs.join separates_right .nil)
  rw [ofCommand_name] at hspells
  exact ⟨_, .func f hw, hspells⟩

/-- The braces of a fraction hold its two parts, so either may be a sum. -/
theorem fraction (h : Reads ν ρ .sum ps a) (h' : Reads ν ρ .sum qs b) :
    Reads ν ρ .atom (Latex.fraction ps qs) (a / b) := by
  obtain ⟨w, hw, hs⟩ := h
  obtain ⟨w', hw', hs'⟩ := h'
  have hnumerator := Spells.command (s := "frac") (List.all_eq_true.1 rfl) separates_openBrace
    (hs.join separates_closeBrace .nil)
  have hdenominator := hs'.join separates_closeBrace .nil
  exact ⟨_, .fraction hw hw', hnumerator.join separates_openBrace hdenominator⟩

/-- The base has to be an atom, and the exponent stands in braces. -/
theorem raised (h : Reads ν ρ .atom ps a) (h' : Reads ν ρ .sum qs b) :
    Reads ν ρ .power (Latex.power ps qs) (a ^ b) := by
  obtain ⟨w, hw, hs⟩ := h
  obtain ⟨w', hw', hs'⟩ := h'
  exact ⟨_, .raised hw hw', hs.join (separates_mark .caret rfl) hs'.inBraces⟩

/-- A minus sign in front of the base is read last. -/
theorem raisedNegative (h : IsNumeral s) (h' : Reads ν ρ .sum qs b) :
    Reads ν ρ .product (Latex.power ["-" ++ s] qs) (-(ν s ^ b)) := by
  obtain ⟨w', hw', hs'⟩ := h'
  have hpower : Denotes ν ρ .power ([.numeral s] ++ .caret :: inBraces w') (ν s ^ b) :=
    .raised (.numeral s) hw'
  exact ⟨_, .negated (.ofPower hpower),
    (spells_negative h).join (separates_mark .caret rfl) hs'.inBraces⟩

/-- The mark of multiplication stands between products. -/
theorem times (h : Reads ν ρ .product ps a) (h' : Reads ν ρ .product qs b) :
    Reads ν ρ .product (ps ++ " \\cdot " :: qs) (a * b) := by
  obtain ⟨w, hw, hs⟩ := h
  obtain ⟨w', hw', hs'⟩ := h'
  exact ⟨_, hw.timesProduct hw', hs.join separates_cdot hs'⟩

theorem plus (h : Reads ν ρ .sum ps a) (h' : Reads ν ρ .sum qs b) :
    Reads ν ρ .sum (ps ++ "+" :: qs) (a + b) := by
  obtain ⟨w, hw, hs⟩ := h
  obtain ⟨w', hw', hs'⟩ := h'
  exact ⟨_, hw.plusSum hw', hs.join (separates_mark .plus rfl) hs'⟩

/-- Behind a minus sign comes a product, since what comes next is not subtracted. -/
theorem minus (h : Reads ν ρ .sum ps a) (h' : Reads ν ρ .product qs b) :
    Reads ν ρ .sum (ps ++ "-" :: qs) (a - b) := by
  obtain ⟨w, hw, hs⟩ := h
  obtain ⟨w', hw', hs'⟩ := h'
  exact ⟨_, .minus hw hw', hs.join (separates_mark .minus rfl) hs'⟩

/-- A chain of operands, from the left. -/
theorem chain {op : NaryOp} {level level' : Level} {join : List String → List String → List String}
    (hjoin : ∀ {ps qs : List String} {a b : ℝ}, Reads ν ρ level ps a → Reads ν ρ level' qs b →
      Reads ν ρ level (join ps qs) (op.apply a b))
    {qss : List (List String)} {bs : List ℝ} (h : Reads ν ρ level ps a)
    (hs : List.Forall₂ (Reads ν ρ level') qss bs) :
    Reads ν ρ level (qss.foldl join ps) (bs.foldl op.apply a) := by
  induction hs generalizing ps a with
  | nil => exact h
  | cons hb _ ih => exact ih (hjoin h hb)

end Reads

end

/-! ## Pieces of trees -/

section

open Latex

variable [Literal α]

/-- A tree with parentheses around it if it is a sum. -/
def factor (t : Tree α) : List String := parensIf (decide (t.precedence ≤ 2)) (pieces t)

/-- Pieces with a mark between them grow from the left. -/
theorem intercalate_eq_foldl (p : String) (ps : List String) (qss : List (List String)) :
    [p].intercalate (ps :: qss) = qss.foldl (fun ps qs => ps ++ p :: qs) ps := by
  rw [Written.intercalate_cons]
  induction qss generalizing ps with
  | nil => rw [List.flatMap_nil, List.append_nil, List.foldl_nil]
  | cons qs qss ih =>
    rw [List.foldl_cons, ← ih, List.flatMap_cons, List.append_assoc ps]
    rfl

/-- Of the terms of a difference those that are sums are put in parentheses, the first apart. -/
theorem terms_eq (op : NaryOp) (t : Tree α) (ts : List (Tree α)) :
    terms op (t :: ts) ((t :: ts).map pieces) =
      pieces t :: ts.map fun u =>
        parensIf (op == .sub && decide (u.precedence ≤ 2)) (pieces u) := by
  rw [List.map_cons, terms, List.zip_cons_cons, List.mapIdx_cons]
  refine congrArg₂ List.cons (by simp [parensIf]) (List.ext_getElem (by simp) fun i h h' => ?_)
  simp

theorem factors_eq (ts : List (Tree α)) : factors ts (ts.map pieces) = ts.map factor :=
  List.ext_getElem (by simp [factors]) fun i h h' => by simp [factors, factor]

variable (t : Tree α) (ts : List (Tree α))

/-- A sum is written from left to right, without parentheses. -/
theorem pieces_add : pieces (.node (.nary .add) (t :: ts)) =
    (ts.map pieces).foldl (fun ps qs => ps ++ "+" :: qs) (pieces t) := by
  rw [pieces, ofNode, terms_eq, intercalate_eq_foldl]
  rfl

/-- A difference is written from left to right, with parentheses around subtrahends that are sums.
-/
theorem pieces_sub : pieces (.node (.nary .sub) (t :: ts)) =
    (ts.map factor).foldl (fun ps qs => ps ++ "-" :: qs) (pieces t) := by
  rw [pieces, ofNode, terms_eq, intercalate_eq_foldl]
  rfl

/-- A product is written from left to right, with parentheses around factors that are sums. -/
theorem pieces_mul : pieces (.node (.nary .mul) (t :: ts)) =
    (ts.map factor).foldl (fun ps qs => ps ++ " \\cdot " :: qs) (factor t) := by
  rw [pieces, ofNode, factors_eq, List.map_cons, intercalate_eq_foldl]

/-- Divisors one after another make fractions within fractions. -/
theorem pieces_div : pieces (.node (.nary .div) (t :: ts)) =
    (ts.map pieces).foldl fraction (pieces t) := by
  rw [pieces]
  rfl

/-- Every further exponent stands behind parentheses around the power so far. -/
theorem pieces_pow (u : Tree α) : pieces (.node (.nary .pow) (t :: u :: ts)) =
    (ts.map pieces).foldl (fun base exponent => power (Latex.inParens base) exponent)
      (power (parensIf (decide (t.precedence ≤ 4)) (pieces t)) (pieces u)) := by
  rw [pieces]
  rfl

/-- A function is written as its command with the operand in parentheses. -/
theorem pieces_func (f : Func) :
    pieces (.node (.func f) [t]) = ("\\" ++ f.name) :: Latex.inParens (pieces t) := by
  rw [pieces, ofNode, List.map_singleton, List.intercalate_singleton]

/-- What is read of the pieces of a tree is read of its formula. -/
theorem Reads.denotes {ν ρ : String → ℝ} {a : ℝ} {t : Tree α} (h : Reads ν ρ .sum (pieces t) a) :
    Denotes ν ρ .sum (symbols t.latex.toList) a := by
  obtain ⟨w, hw, hspells⟩ := h
  have hsymbols : symbols t.latex.toList = w := by
    have hend := hspells [] detached_nil
    rwa [List.append_nil, symbols_nil, List.append_nil, ← String.toList_join] at hend
  rwa [hsymbols]

end

end Formula

/-! ## Expressions -/

namespace Expr

theorem precedence_nary (op : NaryOp) (e : Expr α) (es : List (Expr α)) :
    (nary op e es).toTree.precedence = (Operator.nary op).precedence := by
  rw [toTree]
  rfl

/-- What is asked of the root of an expression: a constant is finite, a name is a word, and an
operator has two operands at least. -/
def IsProper (finite : α → Prop) : Expr α → Prop
  | num a => finite a
  | var x => IsWord x.toList
  | nary _ _ es => es ≠ []
  | func _ _ => True

/-- Every constant is finite, every name is a word, and every operator has two operands at least. -/
def WellFormed (finite : α → Prop) (e : Expr α) : Prop := ∀ p ∈ e.parts, p.IsProper finite

/-- The expression is not a constant with a minus sign. -/
def Unsigned [Literal α] (e : Expr α) : Prop := ∀ a, e = num a → IsNumeral (Literal.text a)

/-- No constant with a minus sign is the base of a power. -/
def UnsignedBases [Literal α] (e : Expr α) : Prop :=
  ∀ base exponents, nary .pow base exponents ∈ e.parts → base.Unsigned

end Expr

namespace Formula

variable [Literal α] {finite : α → Prop}

/-- The value of an expression as a real number. -/
noncomputable def Numbers.value (numbers : Numbers α finite) (ρ : String → ℝ) (e : Expr α) : ℝ :=
  (e.map numbers.real).value ρ

section

variable (numbers : Numbers α finite) (ρ : String → ℝ)

/-- A constant is worth the number that it counts as. -/
theorem Numbers.value_num (a : α) : numbers.value ρ (.num a) = numbers.real a := by
  rw [value, Expr.map, Expr.value]

theorem Numbers.value_var (x : String) : numbers.value ρ (.var x) = ρ x := by
  rw [value, Expr.map, Expr.value]

/-- An operator is applied from left to right to the values of its operands. -/
theorem Numbers.value_nary (op : NaryOp) (e : Expr α) (es : List (Expr α)) :
    numbers.value ρ (.nary op e es) =
      (es.map (numbers.value ρ)).foldl op.apply (numbers.value ρ e) := by
  rw [value, Expr.map, Expr.value, List.map_map]
  rfl

theorem Numbers.value_func (f : Func) (e : Expr α) :
    numbers.value ρ (.func f e) = f.apply (numbers.value ρ e) := by
  rw [value, Expr.map, Expr.value]
  rfl

end

/-- The formula of an expression is read as its value, at every level that it holds together at. -/
structure Readable (numbers : Numbers α finite) (ρ : String → ℝ) (e : Expr α) : Prop where
  sum : Reads numbers.numeral ρ .sum (Latex.pieces e.toTree) (numbers.value ρ e)
  product : 2 < e.toTree.precedence →
    Reads numbers.numeral ρ .product (Latex.pieces e.toTree) (numbers.value ρ e)
  atom : 4 < e.toTree.precedence → e.Unsigned →
    Reads numbers.numeral ρ .atom (Latex.pieces e.toTree) (numbers.value ρ e)

namespace Readable

variable {numbers : Numbers α finite} {ρ : String → ℝ} {e : Expr α} {es : List (Expr α)}

/-- What is read as an atom is read at every level. -/
theorem ofAtom (h : Reads numbers.numeral ρ .atom (Latex.pieces e.toTree) (numbers.value ρ e)) :
    Readable numbers ρ e where
  sum := h.ofAtom.ofPower.ofProduct
  product _ := h.ofAtom.ofPower
  atom _ _ := h

/-- What is read as a product is read as a sum, and holds together no further. -/
theorem ofProduct (hatom : 4 < e.toTree.precedence → ¬ e.Unsigned)
    (h : Reads numbers.numeral ρ .product (Latex.pieces e.toTree) (numbers.value ρ e)) :
    Readable numbers ρ e where
  sum := h.ofProduct
  product _ := h
  atom hprec hunsigned := absurd hunsigned (hatom hprec)

/-- What is read as a sum only has to be of no higher precedence. -/
theorem ofSum (hprec : e.toTree.precedence ≤ 2)
    (h : Reads numbers.numeral ρ .sum (Latex.pieces e.toTree) (numbers.value ρ e)) :
    Readable numbers ρ e where
  sum := h
  product hlt := by omega
  atom hlt := by omega

/-- In parentheses where it is a sum, an expression is a product. -/
theorem factor (h : Readable numbers ρ e) :
    Reads numbers.numeral ρ .product (factor e.toTree) (numbers.value ρ e) := by
  by_cases hprec : e.toTree.precedence ≤ 2
  · rw [Formula.factor, Latex.parensIf, if_pos (decide_eq_true hprec)]
    exact h.sum.parens.ofAtom.ofPower
  · rw [Formula.factor, Latex.parensIf, if_neg (by simpa using hprec)]
    exact h.product (by omega)

/-- In parentheses where it binds no tighter than a power, an expression is an atom. -/
theorem base (h : Readable numbers ρ e) (hunsigned : e.Unsigned) :
    Reads numbers.numeral ρ .atom
      (Latex.parensIf (decide (e.toTree.precedence ≤ 4)) (Latex.pieces e.toTree))
      (numbers.value ρ e) := by
  by_cases hprec : e.toTree.precedence ≤ 4
  · rw [Latex.parensIf, if_pos (decide_eq_true hprec)]
    exact h.sum.parens
  · rw [Latex.parensIf, if_neg (by simpa using hprec)]
    exact h.atom (by omega) hunsigned

/-- A constant is an atom, or a product if it has a minus sign. -/
theorem num {a : α} (ha : finite a) : Readable numbers ρ (.num a) := by
  have hpieces : Latex.pieces (Expr.num a).toTree = [Literal.text a] := by
    rw [Expr.toTree, Latex.pieces]
  rcases numbers.agree a ha with ⟨hnumeral, hvalue⟩ | ⟨s, htext, hnumeral, hvalue⟩
  · refine ofAtom ?_
    rw [hpieces, numbers.value_num, ← hvalue]
    exact .numeral hnumeral
  · refine ofProduct (fun _ hunsigned => ?_) ?_
    · exact not_isNumeral_negative s (htext ▸ hunsigned a rfl)
    · rw [hpieces, numbers.value_num, ← hvalue, htext]
      exact .negative hnumeral

theorem var {x : String} (hx : IsWord x.toList) : Readable numbers ρ (.var x) := by
  refine ofAtom ?_
  rw [Expr.toTree, Latex.pieces, numbers.value_var]
  exact .name hx

/-- A function is an atom, whatever its operand is. -/
theorem func (f : Func) (h : Readable numbers ρ e) : Readable numbers ρ (.func f e) := by
  refine ofAtom ?_
  rw [Expr.toTree, pieces_func, numbers.value_func]
  exact .func f h.sum

/-- The operands of a chain, each with what is written for it. -/
theorem forall₂ {level : Level} {text : Tree α → List String}
    (h : ∀ d ∈ es, Reads numbers.numeral ρ level (text d.toTree) (numbers.value ρ d)) :
    List.Forall₂ (Reads numbers.numeral ρ level) ((es.map Expr.toTree).map text)
      (es.map (numbers.value ρ)) := by
  rw [List.map_map, List.forall₂_map_left_iff, List.forall₂_map_right_iff, List.forall₂_same]
  exact h

/-- By cases on the operator: each takes its operands at the level that they are read at. -/
theorem nary (op : NaryOp) (he : Readable numbers ρ e) (hes : ∀ d ∈ es, Readable numbers ρ d)
    (hne : es ≠ []) (hbase : op = .pow → e.Unsigned) : Readable numbers ρ (.nary op e es) := by
  obtain ⟨d, ds, rfl⟩ := List.exists_cons_of_ne_nil hne
  obtain ⟨hd, hds⟩ := List.forall_mem_cons.1 hes
  cases op with
  | add =>
    refine ofSum (by rw [Expr.precedence_nary]; decide) ?_
    rw [Expr.toTree, pieces_add, numbers.value_nary]
    exact .chain .plus he.sum (forall₂ fun d hd => (hes d hd).sum)
  | sub =>
    refine ofSum (by rw [Expr.precedence_nary]; decide) ?_
    rw [Expr.toTree, pieces_sub, numbers.value_nary]
    exact .chain .minus he.sum (forall₂ fun d hd => (hes d hd).factor)
  | mul =>
    refine ofProduct (fun h => absurd h (by rw [Expr.precedence_nary]; decide)) ?_
    rw [Expr.toTree, pieces_mul, numbers.value_nary]
    exact .chain .times he.factor (forall₂ fun d hd => (hes d hd).factor)
  | div =>
    -- from the first divisor on there is a fraction, which holds together
    refine ofAtom ?_
    rw [Expr.toTree, pieces_div, numbers.value_nary, List.map_cons, List.map_cons, List.map_cons,
      List.foldl_cons, List.foldl_cons]
    exact .chain (fun h => .fraction h.ofAtom.ofPower.ofProduct) (.fraction he.sum hd.sum)
      (forall₂ fun d hd => (hds d hd).sum)
  | pow =>
    refine ofProduct (fun h => absurd h (by rw [Expr.precedence_nary]; decide)) ?_
    rw [Expr.toTree, List.map_cons, pieces_pow, numbers.value_nary, List.map_cons, List.foldl_cons]
    -- from the second exponent on the base is a power in parentheses, whatever the first base is
    have hfirst := Reads.raised (he.base (hbase rfl)) hd.sum
    exact .ofPower (.chain (fun h => .raised (.parens h.ofPower.ofProduct)) hfirst
      (forall₂ fun d hd => (hds d hd).sum))

end Readable

/-- Every expression without a signed constant as a base is read as its value. -/
theorem readable (numbers : Numbers α finite) (ρ : String → ℝ) {e : Expr α}
    (hwell : e.WellFormed finite) (hbases : e.UnsignedBases) : Readable numbers ρ e := by
  induction e using Expr.operands_induction with
  | num a => exact .num (hwell _ (Expr.mem_parts_self _))
  | var x => exact .var (hwell _ (Expr.mem_parts_self _))
  | nary op e es ihe ihes =>
    have he : Readable numbers ρ e :=
      ihe (fun p hp => hwell p (Expr.mem_parts_first op es hp))
        fun base exponents hp => hbases base exponents (Expr.mem_parts_first op es hp)
    have hes : ∀ d ∈ es, Readable numbers ρ d := fun d hd =>
      ihes d hd (fun p hp => hwell p (Expr.mem_parts_other op e hd hp))
        fun base exponents hp => hbases base exponents (Expr.mem_parts_other op e hd hp)
    refine .nary op he hes (hwell _ (Expr.mem_parts_self _)) ?_
    rintro rfl
    exact hbases e es (Expr.mem_parts_self _)
  | func f e ih =>
    exact .func f (ih (fun p hp => hwell p (Expr.mem_parts_argument f hp))
      fun base exponents hp => hbases base exponents (Expr.mem_parts_argument f hp))

end Formula

open Formula

/-- The formula of an expression is read as its value and as no other number, whatever the names
stand for, unless a constant with a minus sign is the base of a power. -/
theorem Tree.latex_denotes [Literal α] {finite : α → Prop} (numbers : Numbers α finite)
    (ρ : String → ℝ) {t : Tree α} {e : Expr α} (ht : t.toExpr = .ok e) (hwell : e.WellFormed finite)
    (hbases : e.UnsignedBases) (v : ℝ) :
    Denotes numbers.numeral ρ .sum (symbols t.latex.toList) v ↔
      v = (e.map numbers.real).value ρ := by
  have hvalue : Denotes numbers.numeral ρ .sum (symbols t.latex.toList) (numbers.value ρ e) := by
    rw [← Expr.toTree_of_toExpr ht]
    exact (readable numbers ρ hwell hbases).sum.denotes
  constructor
  · exact fun h => h.unique hvalue
  · rintro rfl
    exact hvalue

/-! Two and its opposite, as constants and as digits. -/

namespace Doubles

theorem text_two : Literal.text (2 : Float) = "2" := by decide +kernel

theorem text_neg_two : Literal.text (-2 : Float) = "-" ++ "2" := by decide +kernel

theorem isNumeral_two : IsNumeral "2" := Or.inl ⟨List.cons_ne_nil _ _, List.all_eq_true.1 rfl⟩

theorem isFinite_two : (2 : Float).isFinite = true := by decide +kernel

theorem isFinite_neg_two : (-2 : Float).isFinite = true := by decide +kernel

theorem real_two : real 2 = 2 := (real_ofNat two_pos (by decide)).trans Nat.cast_ofNat

/-- The numeral is read as the double that is exactly two. -/
theorem numeral_two : Numbers.doubles.numeral "2" = 2 := by
  have hread : Numeral.ofToken "2" = 2 := by decide +kernel
  rw [Numbers.doubles_numeral, hread, real_two]

theorem decimal_two : Numbers.decimal "2" = 2 := by
  have hread : Decimal.ofChars "2".toList = ⟨2, 0⟩ := by decide
  rw [Numbers.decimal, hread]
  norm_num

end Doubles

open Doubles

/-- One of the constants has a minus sign, but it is no base. -/
theorem Tree.latex_denotes_difference :
    ∃ (t : Tree Float) (e : Expr Float), t.toExpr = .ok e ∧
      e = .nary .sub (.nary .pow (.num 2) [.var "x"]) [.nary .mul (.var "x") [.num (-2)]] ∧
      e.WellFormed (fun x => x.isFinite = true) ∧ e.UnsignedBases ∧
      ∀ ρ v, Denotes Numbers.decimal ρ .sum (symbols t.latex.toList) v ↔
        v = 2 ^ ρ "x" - ρ "x" * -2 := by
  obtain ⟨e, he⟩ : ∃ e : Expr Float, e =
      .nary .sub (.nary .pow (.num 2) [.var "x"]) [.nary .mul (.var "x") [.num (-2)]] := ⟨_, rfl⟩
  have hparts : e.parts = [e, .nary .pow (.num 2) [.var "x"], .num 2, .var "x",
      .nary .mul (.var "x") [.num (-2)], .var "x", .num (-2)] := by
    simp [he, Expr.parts]
  have hx : IsWord ['x'] := ⟨'x', [], rfl, rfl, List.forall_mem_nil _⟩
  have hwell : e.WellFormed (fun x => x.isFinite = true) := by
    rw [Expr.WellFormed, hparts]
    simp [he, Expr.IsProper, hx, isFinite_two, isFinite_neg_two]
  have hbases : e.UnsignedBases := by
    rw [Expr.UnsignedBases, hparts]
    rintro base exponents hp a rfl
    obtain ⟨rfl, -⟩ : a = 2 ∧ exponents = [.var "x"] := by simpa [he] using hp
    rw [text_two]
    exact isNumeral_two
  refine ⟨e.toTree, e, Expr.toExpr_toTree e, he, hwell, hbases, fun ρ v => ?_⟩
  -- the numbers count as the decimals that are written, here 2 and -2
  have hvalue : (e.map (Numbers.decimals legible_float).real).value ρ =
      2 ^ ρ "x" - ρ "x" * -2 := by
    simp only [he, Expr.map, Expr.value, List.map_cons, List.map_nil, List.foldl_cons,
      List.foldl_nil]
    show Numbers.signedDecimal (Literal.text (2 : Float)) ^ ρ "x" -
      ρ "x" * Numbers.signedDecimal (Literal.text (-2 : Float)) = _
    rw [text_two, text_neg_two, Numbers.signedDecimal_numeral isNumeral_two,
      Numbers.signedDecimal_negative, decimal_two]
  rw [← hvalue]
  exact Tree.latex_denotes (Numbers.decimals legible_float) ρ (Expr.toExpr_toTree e) hwell hbases v

/-- The square of -2 is written so that it is read as the opposite of the square of 2. -/
theorem Tree.not_latex_denotes :
    (node (.nary .pow) [num (-2), num 2] : Tree Float).latex = "-2^\x7b2\x7d" ∧
    ∃ e : Expr Float, (node (.nary .pow) [num (-2), num 2]).toExpr = .ok e ∧
      e.WellFormed (fun x => x.isFinite = true) ∧
      ∀ ρ, (e.map Numbers.doubles.real).value ρ = 4 ∧
        ∀ v, Denotes Numbers.doubles.numeral ρ .sum (symbols "-2^\x7b2\x7d".toList) v ↔ v = -4 := by
  have hpieces : Latex.pieces (node (.nary .pow) [num (-2), num 2] : Tree Float) =
      Latex.power ["-" ++ "2"] ["2"] := by
    rw [Formula.pieces_pow, Latex.pieces, Latex.pieces, text_neg_two, text_two]
    rfl
  have hlatex : (node (.nary .pow) [num (-2), num 2] : Tree Float).latex = "-2^\x7b2\x7d" := by
    rw [latex, hpieces]
    rfl
  refine ⟨hlatex, .nary .pow (.num (-2)) [.num 2], ?_, ?_, fun ρ => ⟨?_, fun v => ?_⟩⟩
  · have hread := Expr.toExpr_toTree (.nary .pow (.num (-2)) [.num 2] : Expr Float)
    simpa [Expr.toTree] using hread
  · have hparts : (.nary .pow (.num (-2)) [.num 2] : Expr Float).parts =
        [.nary .pow (.num (-2)) [.num 2], .num (-2), .num 2] := by
      simp [Expr.parts]
    rw [Expr.WellFormed, hparts, List.forall_mem_cons, List.forall_mem_cons,
      List.forall_mem_singleton]
    exact ⟨List.cons_ne_nil _ _, isFinite_neg_two, isFinite_two⟩
  -- the value of the expression is four
  · simp only [Expr.map, Expr.value, List.map_cons, List.map_nil, List.foldl_cons, List.foldl_nil]
    show real (-2) ^ real 2 = 4
    rw [show real (-2) = -real 2 from real_neg 2, real_two]
    norm_num
  · have hexponent : Reads Numbers.doubles.numeral ρ .sum ["2"] (Numbers.doubles.numeral "2") :=
      .ofProduct (.ofPower (.ofAtom (.numeral isNumeral_two)))
    -- the sign applies to the power of two, not to its base
    have hread := (Reads.raisedNegative isNumeral_two hexponent).ofProduct
    have hvalue : -(2 : ℝ) ^ (2 : ℝ) = -4 := by norm_num
    rw [numeral_two, hvalue, ← hpieces] at hread
    rw [← hlatex]
    constructor
    · exact fun h => h.unique hread.denotes
    · rintro rfl
      exact hread.denotes

end Fluxion

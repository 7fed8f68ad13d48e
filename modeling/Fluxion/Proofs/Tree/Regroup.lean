import Fluxion.Proofs.Expr.Trees
import Fluxion.Proofs.Tree.Spelling
import Mathlib.Data.List.Induction

/-!
# Powers one level at a time

A text has no power of more than one exponent: `(a^b)^c` is read as a power of a power, and that is
how a power of several exponents is written. `Tree.regroup` makes of each such power the nested one
with the same text (`Tree.pieces_nested`), which has a shape that is read back
(`Shape.expression_nested`).
-/

namespace Fluxion

variable {α : Type} {t : Tree α} {ts : List (Tree α)}

namespace Tree

/-- A power one level at a time: `(a^b)^c`. Any other operator stays as it is. -/
def nested (op : Operator) (ts : List (Tree α)) : Tree α :=
  match op, ts with
  | .nary .pow, t :: u :: us =>
    us.foldl (fun base e => node (.nary .pow) [base, e]) (node (.nary .pow) [t, u])
  | op, ts => node op ts

/-- The tree with every power one level at a time. -/
def regroup : Tree α → Tree α
  | num a => num a
  | var x => var x
  | node op ts => nested op (ts.map regroup)

theorem regroup_num (a : α) : (num a).regroup = num a := by rw [regroup]

theorem regroup_var (x : String) : (var x : Tree α).regroup = var x := by rw [regroup]

theorem regroup_node (op : Operator) (ts : List (Tree α)) :
    (node op ts).regroup = nested op (ts.map regroup) := by rw [regroup]

theorem nested_of_ne_pow {op : Operator} (h : op ≠ .nary .pow) (ts : List (Tree α)) :
    nested op ts = node op ts := by
  unfold nested
  split
  · exact absurd rfl h
  · rfl

/-- Outside of powers only the operands change. -/
theorem regroup_of_ne_pow {op : Operator} (h : op ≠ .nary .pow) (ts : List (Tree α)) :
    (node op ts).regroup = node op (ts.map regroup) := by
  rw [regroup_node, nested_of_ne_pow h]

/-- The last exponent is the outermost. -/
theorem nested_append (h : 2 ≤ ts.length) (e : Tree α) :
    nested (.nary .pow) (ts ++ [e]) = node (.nary .pow) [nested (.nary .pow) ts, e] := by
  match ts, h with
  | t :: u :: us, _ =>
    show (us ++ [e]).foldl _ _ = _
    rw [List.foldl_append]
    rfl

/-- Induction on the exponents from the last one, down to a base with one exponent. -/
theorem exponents_induction {motive : List (Tree α) → Prop} (pair : ∀ t u, motive [t, u])
    (append : ∀ ts e, 2 ≤ ts.length → motive ts → motive (ts ++ [e])) :
    ∀ ts : List (Tree α), 2 ≤ ts.length → motive ts := by
  intro ts h
  match ts, h with
  | t :: u :: us, _ =>
    induction us using List.reverseRecOn with
    | nil => exact pair t u
    | append_singleton us e ih =>
      exact append (t :: u :: us) e (Nat.le_add_left 2 _) (ih (Nat.le_add_left 2 _))

theorem operator?_nested (op : Operator) (ts : List (Tree α)) :
    (nested op ts).operator? = some op := by
  by_cases hop : op = .nary .pow
  · subst hop
    match ts with
    | [] | [t] => rfl
    | t :: u :: us =>
      refine exponents_induction (motive := fun ts => (nested (.nary .pow) ts).operator? = _)
        (fun _ _ => rfl) (fun ts e h _ => ?_) (t :: u :: us) (Nat.le_add_left 2 _)
      rw [nested_append h]
      rfl
  · rw [nested_of_ne_pow hop]
    rfl

/-- The operator at the root stays, and with it what needs parentheses. -/
theorem operator?_regroup (t : Tree α) : t.regroup.operator? = t.operator? := by
  cases t with
  | num a => rw [regroup_num]
  | var x => rw [regroup_var]
  | node op ts =>
    rw [regroup_node, operator?_nested]
    rfl

theorem constants_nested (op : Operator) (ts : List (Tree α)) :
    (nested op ts).constants = (node op ts).constants := by
  by_cases hop : op = .nary .pow
  · subst hop
    match ts with
    | [] | [t] => rfl
    | t :: u :: us =>
      refine exponents_induction (motive := fun ts => (nested (.nary .pow) ts).constants =
        (node (.nary .pow) ts).constants) (fun _ _ => rfl) (fun ts e h ih => ?_) (t :: u :: us)
        (Nat.le_add_left 2 _)
      rw [nested_append h, constants, constants, List.map_append, List.flatten_append,
        List.map_cons, List.flatten_cons, ih, constants]
  · rw [nested_of_ne_pow hop]

theorem constants_regroup (t : Tree α) : t.regroup.constants = t.constants := by
  induction t using operands_induction with
  | num a => rw [regroup_num]
  | var x => rw [regroup_var]
  | node op ts ih =>
    rw [regroup_node, constants_nested, constants, constants, List.map_map]
    exact congrArg List.flatten (List.map_congr_left ih)

end Tree

/-! ## The text -/

section Text

variable [Literal α]

open Written

namespace Tree

/-- What is written of an operator without a block depends on the operators and the texts of its
operands. -/
theorem pieces_map {op : Operator} {f : Tree α → Tree α} (hblock : op.endsInBlock = false)
    (hoperator : ∀ t ∈ ts, (f t).operator? = t.operator?)
    (hpieces : ∀ t ∈ ts, (f t).pieces = t.pieces) :
    (node op (ts.map f)).pieces = (node op ts).pieces := by
  have htexts : (ts.map f).map pieces = ts.map pieces := by
    rw [List.map_map]
    exact List.map_congr_left hpieces
  -- parentheses are put by the operators of the operands, which are kept
  have hparens : ∀ i, ∀ t ∈ ts, op.needsParens i (f t) = op.needsParens i t := by
    intro i t ht
    have hprecedence : (f t).precedence = t.precedence := by
      rw [precedence, precedence, hoperator t ht]
    have hisOperator : ∀ op, (f t).isOperator op = t.isOperator op := fun op => by
      rw [isOperator, isOperator, hoperator t ht]
    unfold Operator.needsParens
    simp only [hprecedence, hisOperator]
  have hoperands : (ts.map f).mapIdx (operandPieces op) = ts.mapIdx (operandPieces op) := by
    refine List.ext_getElem (by simp) fun i h h' => ?_
    have hi : i < ts.length := by simpa using h'
    have hmem : ts[i] ∈ ts := List.getElem_mem hi
    simp only [List.getElem_mapIdx, List.getElem_map, operandPieces, hparens i _ hmem,
      hpieces _ hmem]
  have hstatements : (ts.map f).map statementPieces = ts.map statementPieces := by
    rw [List.map_map]
    refine List.map_congr_left fun t ht => ?_
    show statementText (f t) (f t).pieces = statementText t t.pieces
    rw [statementText, statementText, hoperator t ht, hpieces t ht]
  rw [pieces_node, pieces_node]
  -- each operator writes the operands one way; the block forms are excluded
  cases op with
  | nary op =>
    cases op with
    | add | sub | mul | div | pow =>
      simp only [ofNode, map_text, operandTexts_eq, hoperands]
  | relation r => simp only [ofNode, map_text, operandTexts_eq, hoperands]
  | assign => simp only [ofNode, map_text, operandTexts_eq, hoperands]
  | func f => simp only [ofNode, map_text, htexts]
  | call name => simp only [ofNode, map_text, htexts]
  | giveBack => simp only [ofNode, map_text, htexts]
  | sequence =>
    simp only [ofNode, map_text, statementTexts_eq, sequencePieces, hstatements]
  | ifElse | whileLoop | forLoop | define name => cases hblock

/-- A power is written with a parenthesis for every exponent but one in front. -/
theorem pieces_power (t : Tree α) (ts : List (Tree α)) :
    (node (.nary .pow) (t :: ts)).pieces = List.replicate (ts.length - 1) "(" ++
      operandPieces (.nary .pow) 0 t ++ exponentTexts (ts.map (operandPieces (.nary .pow) 1)) := by
  rw [pieces_node, ofNode, map_text, operandTexts_eq, mapIdx_operandPieces, powerText,
    List.length_map]

omit [Literal α] in
/-- Before every further exponent a parenthesis is closed. -/
theorem exponentTexts_append {texts : List (List String)} (h : texts ≠ []) (last : List String) :
    exponentTexts (texts ++ [last]) = exponentTexts texts ++ ")" :: "^" :: last := by
  induction texts with
  | nil => exact absurd rfl h
  | cons text texts ih =>
    cases texts with
    | nil => rfl
    | cons next texts =>
      show "^" :: text ++ ")" :: exponentTexts (next :: texts ++ [last]) =
        ("^" :: text ++ ")" :: exponentTexts (next :: texts)) ++ ")" :: "^" :: last
      rw [ih (List.cons_ne_nil _ _)]
      simp

/-- With one exponent more there is one pair of parentheses more. -/
theorem pieces_power_append (h : 2 ≤ ts.length) (e : Tree α) :
    (node (.nary .pow) (ts ++ [e])).pieces =
      inParens (node (.nary .pow) ts).pieces ++ "^" :: operandPieces (.nary .pow) 1 e := by
  match ts, h with
  | t :: u :: us, _ =>
    have hlength : (u :: us ++ [e]).length - 1 = (u :: us).length - 1 + 1 := by simp
    rw [List.cons_append, pieces_power, pieces_power, hlength, List.replicate_succ, List.map_append,
      List.map_singleton, exponentTexts_append (by simp)]
    simp [inParens]

/-- A power of several exponents is written as the nested one. -/
theorem pieces_nested (h : 2 ≤ ts.length) :
    (nested (.nary .pow) ts).pieces = (node (.nary .pow) ts).pieces := by
  refine exponents_induction (motive := fun ts => (nested (.nary .pow) ts).pieces =
    (node (.nary .pow) ts).pieces) (fun _ _ => rfl) (fun ts e h ih => ?_) ts h
  have hparens : operandPieces (.nary .pow) 0 (nested (.nary .pow) ts) =
      inParens (nested (.nary .pow) ts).pieces := by
    rw [operandPieces, if_pos]
    rw [Operator.needsParens, precedence, operator?_nested]
    rfl
  rw [nested_append h, pieces_pow, pieces_power_append h, hparens, ih]

end Tree

end Text

/-! ## The shape -/

namespace Shape

variable {finite finite' : α → Prop}

/-- A power of two operands is an expression if both of them are. -/
theorem expression_power {t u : Tree α} :
    Expression finite (.node (.nary .pow) [t, u]) ↔ Expression finite t ∧ Expression finite u := by
  constructor
  · intro h
    cases h with
    | nary hpow => exact absurd rfl hpow
    | pow ht hu => exact ⟨ht, hu⟩
  · rintro ⟨ht, hu⟩
    exact .pow ht hu

/-- A nested power is an expression if the base and the exponents are. -/
theorem expression_exponents (h : 2 ≤ ts.length) :
    Expression finite (Tree.nested (.nary .pow) ts) ↔ ∀ t ∈ ts, Expression finite t := by
  refine Tree.exponents_induction (motive := fun ts =>
    Expression finite (Tree.nested (.nary .pow) ts) ↔ ∀ t ∈ ts, Expression finite t)
    (fun t u => ?pair) (fun ts e h ih => ?append) ts h
  case pair =>
    show Expression finite (.node (.nary .pow) [t, u]) ↔ _
    rw [expression_power, List.forall_mem_cons, List.forall_mem_singleton]
  case append =>
    rw [Tree.nested_append h, expression_power, ih, List.forall_mem_append,
      List.forall_mem_singleton]

/-- Arithmetic on at least two expressions is an expression when its powers are nested. -/
theorem expression_nested {op : NaryOp} :
    Expression finite (Tree.nested (.nary op) ts) ↔
      2 ≤ ts.length ∧ ∀ t ∈ ts, Expression finite t := by
  by_cases hop : op = .pow
  · subst hop
    match ts with
    | [] | [t] =>
      constructor
      · intro h
        cases h with
        | nary hpow => exact absurd rfl hpow
      · rintro ⟨h, -⟩
        simp at h
    | t :: u :: us =>
      have htwo : 2 ≤ (t :: u :: us).length := Nat.le_add_left 2 _
      rw [expression_exponents htwo]
      exact (and_iff_right htwo).symm
  · rw [Tree.nested_of_ne_pow fun h => hop (Operator.nary.inj h)]
    constructor
    · intro h
      cases h with
      | nary _ hlength hts => exact ⟨hlength, hts⟩
      | pow => exact absurd rfl hop
    · rintro ⟨hlength, hts⟩
      exact .nary hop hlength hts

/-- The shape of an expression does not depend on what is called finite, as long as its constants
are. -/
theorem Expression.restrict (h : Expression finite t) (ht : t.IsFinite finite') :
    Expression finite' t := by
  induction h with
  | num _ => exact .num (Tree.isFinite_num.1 ht)
  | var hx => exact .var hx
  | nary hop hlength _ ih =>
    exact .nary hop hlength fun t hmem => ih t hmem (Tree.isFinite_node.1 ht t hmem)
  | pow _ _ ih ih' =>
    have hts := Tree.isFinite_node.1 ht
    exact .pow (ih (hts _ (by simp))) (ih' (hts _ (by simp)))
  | relation _ _ ih ih' =>
    have hts := Tree.isFinite_node.1 ht
    exact .relation (ih (hts _ (by simp))) (ih' (hts _ (by simp)))
  | func _ ih => exact .func (ih (Tree.isFinite_node.1 ht _ (by simp)))
  | assign hx _ ih => exact .assign hx (ih (Tree.isFinite_node.1 ht _ (by simp)))
  | call hname hlength _ ih =>
    exact .call hname hlength fun t hmem => ih t hmem (Tree.isFinite_node.1 ht t hmem)

/-- Nesting powers does not change the text of an expression. -/
theorem pieces_regroup [Literal α] (h : Expression finite t.regroup) :
    t.regroup.pieces = t.pieces := by
  induction t using Tree.operands_induction with
  | num a => rw [Tree.regroup_num]
  | var x => rw [Tree.regroup_var]
  | node op ts ih =>
    have hmap : op.endsInBlock = false → (∀ t ∈ ts, Expression finite t.regroup) →
        (Tree.node op (ts.map Tree.regroup)).pieces = (Tree.node op ts).pieces := fun hop hts =>
      Tree.pieces_map hop (fun t _ => t.operator?_regroup) fun t ht => ih t ht (hts t ht)
    by_cases hnary : ∃ op', op = .nary op'
    · obtain ⟨op', rfl⟩ := hnary
      rw [Tree.regroup_node] at h ⊢
      obtain ⟨hlength, hts⟩ := expression_nested.1 h
      rw [← hmap rfl fun t ht => hts _ (List.mem_map_of_mem ht)]
      by_cases hpow : op' = .pow
      · rw [hpow]
        exact Tree.pieces_nested hlength
      · rw [Tree.nested_of_ne_pow fun h => hpow (Operator.nary.inj h)]
    · have hne : op ≠ .nary .pow := fun heq => hnary ⟨_, heq⟩
      rw [Tree.regroup_of_ne_pow hne] at h ⊢
      -- the tree is an expression, so its operator has expressions as operands and no block
      have hoperands : op.endsInBlock = false ∧ ∀ u ∈ ts.map Tree.regroup, Expression finite u := by
        generalize ts.map Tree.regroup = us at h
        cases h with
        | nary => exact absurd ⟨_, rfl⟩ hnary
        | pow => exact absurd rfl hne
        | relation h h' =>
          exact ⟨rfl, List.forall_mem_cons.2 ⟨h, List.forall_mem_singleton.2 h'⟩⟩
        | func h => exact ⟨rfl, List.forall_mem_singleton.2 h⟩
        | assign hx h =>
          exact ⟨rfl, List.forall_mem_cons.2 ⟨.var hx, List.forall_mem_singleton.2 h⟩⟩
        | call _ _ h => exact ⟨rfl, h⟩
      exact hmap hoperands.1 fun t ht => hoperands.2 _ (List.mem_map_of_mem ht)

end Shape

end Fluxion

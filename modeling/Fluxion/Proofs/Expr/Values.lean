import Fluxion.Expr.Evaluation

/-!
# Values of expressions

Evaluation fails for a lack of values only. Where every variable has one, the result is
`Expr.value`, which takes the variables from a total assignment and so needs no failure
(`Expr.eval_eq_ok_iff`). Only the variables that occur matter to it.

`Expr.parts` lists the subexpressions; conditions on an expression at a point are conditions on
these.
-/

namespace Fluxion

variable {α : Type}

/-- The value of every variable, that of an unbound one being zero. -/
def Bindings.assign [Scalar α] (bindings : Bindings α) (x : String) : α :=
  (bindings.lookup x).getD (Scalar.ofNat 0)

theorem mapM_eq_ok {β γ ε : Type} {f : β → Except ε γ} {g : β → γ} {bs : List β}
    (h : ∀ b ∈ bs, f b = .ok (g b)) : bs.mapM f = .ok (bs.map g) := by
  induction bs with
  | nil => rfl
  | cons b bs ih =>
    rw [List.mapM_cons, h b (List.mem_cons_self ..), ih fun c hc => h c (List.mem_cons_of_mem _ hc)]
    rfl

theorem exists_of_mapM_eq_ok {β γ ε : Type} {f : β → Except ε γ} {bs : List β} {cs : List γ}
    (h : bs.mapM f = .ok cs) : ∀ b ∈ bs, ∃ c, f b = .ok c := by
  induction bs generalizing cs with
  | nil => intro b hb; cases hb
  | cons b bs ih =>
    rw [List.mapM_cons] at h
    cases hb : f b with
    | error e => rw [hb] at h; cases h
    | ok c =>
      cases hbs : bs.mapM f with
      | error e => rw [hb, hbs] at h; cases h
      | ok ds =>
        rintro b' (_ | ⟨_, hmem⟩)
        · exact ⟨c, hb⟩
        · exact ih hbs b' hmem

namespace Expr

/-- The expression and its subexpressions. -/
def parts : Expr α → List (Expr α)
  | num a => [num a]
  | var x => [var x]
  | nary op e es => nary op e es :: (e.parts ++ (es.map parts).flatten)
  | func f e => func f e :: e.parts

/-- Induction on the operands. -/
@[elab_as_elim]
theorem operands_induction {motive : Expr α → Prop}
    (num : ∀ a, motive (num a)) (var : ∀ x, motive (var x))
    (nary : ∀ op e es, motive e → (∀ d ∈ es, motive d) → motive (nary op e es))
    (func : ∀ f e, motive e → motive (func f e)) : ∀ e, motive e
  | .num a => num a
  | .var x => var x
  | .nary op e es =>
    nary op e es (operands_induction num var nary func e) fun d _ =>
      operands_induction num var nary func d
  | .func f e => func f e (operands_induction num var nary func e)

theorem mem_parts_self (e : Expr α) : e ∈ e.parts := by
  cases e <;> simp [parts]

theorem mem_parts_first {e p : Expr α} (op : NaryOp) (es : List (Expr α)) (h : p ∈ e.parts) :
    p ∈ (nary op e es).parts := by
  rw [parts]
  exact List.mem_cons_of_mem _ (List.mem_append_left _ h)

theorem mem_parts_other {d p : Expr α} (op : NaryOp) (e : Expr α) {es : List (Expr α)} (hd : d ∈ es)
    (h : p ∈ d.parts) : p ∈ (nary op e es).parts := by
  rw [parts]
  exact List.mem_cons_of_mem _ (List.mem_append_right _
    (List.mem_flatten.2 ⟨d.parts, List.mem_map_of_mem hd, h⟩))

theorem mem_parts_argument {e p : Expr α} (f : Func) (h : p ∈ e.parts) : p ∈ (func f e).parts := by
  rw [parts]
  exact List.mem_cons_of_mem _ h

/-- Every variable of the expression has the property `P`. -/
def NamesIn (P : String → Prop) (e : Expr α) : Prop := ∀ x ∈ e.leafNames, P x

section

variable {P : String → Prop}

@[simp] theorem namesIn_num (a : α) : (num a).NamesIn P := by
  intro x hx
  rw [leafNames] at hx
  cases hx

@[simp] theorem namesIn_var {x : String} : (var x : Expr α).NamesIn P ↔ P x := by
  simp [NamesIn, leafNames]

/-- The variables of an operator are those of its operands. -/
@[simp] theorem namesIn_nary {op : NaryOp} {e : Expr α} {es : List (Expr α)} :
    (nary op e es).NamesIn P ↔ e.NamesIn P ∧ ∀ d ∈ es, d.NamesIn P := by
  simp only [NamesIn, leafNames, List.mem_append, ← List.flatMap_def, List.mem_flatMap]
  constructor
  · intro h
    exact ⟨fun x hx => h x (Or.inl hx), fun d hd x hx => h x (Or.inr ⟨d, hd, hx⟩)⟩
  · rintro ⟨he, hes⟩ x (hx | ⟨d, hd, hx⟩)
    · exact he x hx
    · exact hes d hd x hx

@[simp] theorem namesIn_func {f : Func} {e : Expr α} : (func f e).NamesIn P ↔ e.NamesIn P := by
  simp only [NamesIn, leafNames]

end

/-- No variable is found exactly if no leaf is one. -/
theorem hasVariable_eq_false_iff {e : Expr α} : e.hasVariable = false ↔ e.leafNames = [] := by
  simp [hasVariable]

end Expr

/-- Every variable of the expression has a value. -/
def Bindings.Covers (bindings : Bindings α) (e : Expr α) : Prop :=
  e.NamesIn fun x => (bindings.lookup x).isSome

namespace Expr

variable [Scalar α]

/-- The value of an expression under values for all variables. -/
def value (ρ : String → α) : Expr α → α
  | num a => a
  | var x => ρ x
  | nary op e es => (es.map (value ρ)).foldl op.apply (e.value ρ)
  | func f e => f.apply (e.value ρ)

/-- Only the variables that occur matter to the value. -/
theorem value_congr {ρ ρ' : String → α} {e : Expr α} (h : e.NamesIn fun x => ρ x = ρ' x) :
    e.value ρ = e.value ρ' := by
  induction e using operands_induction with
  | num a => rw [value, value]
  | var x => rw [value, value, namesIn_var.1 h]
  | nary op e es ihe ihes =>
    obtain ⟨he, hes⟩ := namesIn_nary.1 h
    have hvalues : es.map (value ρ) = es.map (value ρ') :=
      List.map_congr_left fun d hd => ihes d hd (hes d hd)
    rw [value, value, ihe he, hvalues]
  | func f e ih => rw [value, value, ih (namesIn_func.1 h)]

/-- The value of an expression without variables is the same everywhere. -/
theorem value_of_hasVariable_eq_false (ρ ρ' : String → α) {e : Expr α}
    (h : e.hasVariable = false) : e.value ρ = e.value ρ' :=
  value_congr fun x hx => by rw [hasVariable_eq_false_iff.1 h] at hx; cases hx

/-- An expression whose variables all have a value has one itself. -/
theorem eval_eq_ok {bindings : Bindings α} {e : Expr α} (h : bindings.Covers e) :
    e.eval bindings = .ok (e.value bindings.assign) := by
  induction e using operands_induction with
  | num a => rw [eval, value]
  | var x =>
    obtain ⟨a, ha⟩ := Option.isSome_iff_exists.1 (namesIn_var.1 h)
    simp only [eval, value, Bindings.assign, ha, Option.getD_some]
  | nary op e es ihe ihes =>
    obtain ⟨he, hes⟩ := namesIn_nary.1 h
    have hvalues : es.mapM (eval bindings) = .ok (es.map (value bindings.assign)) :=
      mapM_eq_ok fun d hd => ihes d hd (hes d hd)
    rw [eval, ihe he, hvalues, value]
    rfl
  | func f e ih =>
    rw [eval, ih (namesIn_func.1 h), value]
    rfl

/-- If evaluation goes well every variable has a value. -/
theorem covers_of_eval_eq_ok {bindings : Bindings α} {e : Expr α} {a : α}
    (h : e.eval bindings = .ok a) : bindings.Covers e := by
  induction e using operands_induction generalizing a with
  | num b => exact namesIn_num b
  | var x =>
    rw [eval] at h
    cases hx : bindings.lookup x with
    | none => rw [hx] at h; cases h
    | some b => exact namesIn_var.2 (by rw [hx]; rfl)
  | nary op e es ihe ihes =>
    rw [eval] at h
    -- no operand has failed, or the whole would have
    cases he : e.eval bindings with
    | error u => rw [he] at h; cases h
    | ok b =>
      cases hes : es.mapM (eval bindings) with
      | error u => rw [he, hes] at h; cases h
      | ok bs =>
        refine namesIn_nary.2 ⟨ihe he, fun d hd => ?_⟩
        obtain ⟨c, hc⟩ := exists_of_mapM_eq_ok hes d hd
        exact ihes d hd hc
  | func f e ih =>
    rw [eval] at h
    cases he : e.eval bindings with
    | error u => rw [he] at h; cases h
    | ok b => exact namesIn_func.2 (ih he)

/-- Evaluation yields the value if every variable has one, and else nothing. -/
theorem eval_eq_ok_iff {bindings : Bindings α} {e : Expr α} {a : α} :
    e.eval bindings = .ok a ↔ bindings.Covers e ∧ e.value bindings.assign = a := by
  constructor
  · intro h
    have covers := covers_of_eval_eq_ok h
    refine ⟨covers, ?_⟩
    rw [eval_eq_ok covers] at h
    exact Except.ok.inj h
  · rintro ⟨covers, rfl⟩
    exact eval_eq_ok covers

end Expr

end Fluxion

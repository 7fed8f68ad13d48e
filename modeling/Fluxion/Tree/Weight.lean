import Fluxion.Tree.Basic

/-!
# The weight of a tree

The weight counts one for a constant, four for a variable and two for an operator. It is what
makes simplification end: every rule makes a tree lighter and adds no variable to it, which is the
relation `Lighter`. Since a tree's weight is its bulk and three times its number of variables, a
lighter tree has fewer variables, or as many and less bulk.

The lemmas on lists of trees say what leaving out, joining and putting together operands does to the
sum of their weights.
-/

namespace Fluxion.Tree

variable {α : Type}

/-- The number of variable leaves. -/
def variableCount (t : Tree α) : Nat := t.leafNames.length

/-- One for a constant, four for a variable, two for an operator. -/
def weight (t : Tree α) : Nat := t.bulk + 3 * t.variableCount

/-- The sum of the weights of some trees. -/
def totalWeight (ts : List (Tree α)) : Nat := total (ts.map weight)

/-- The number of variable leaves in some trees. -/
def totalVariables (ts : List (Tree α)) : Nat := total (ts.map variableCount)

/-- Lighter, with no more variables. -/
def Lighter (t' t : Tree α) : Prop :=
  t'.variableCount ≤ t.variableCount ∧ t'.weight < t.weight

theorem Lighter.trans {a b c : Tree α} (hab : Lighter a b) (hbc : Lighter b c) : Lighter a c :=
  ⟨Nat.le_trans hab.1 hbc.1, Nat.lt_trans hab.2 hbc.2⟩

theorem total_append (ms ns : List Nat) : total (ms ++ ns) = total ms + total ns := by
  induction ms with
  | nil => simp [total]
  | cons m ms ih =>
    show m + total (ms ++ ns) = m + total ms + total ns
    rw [ih, Nat.add_assoc]

/-- The order of the summands does not matter. -/
theorem total_perm {ms ns : List Nat} (h : ms.Perm ns) : total ms = total ns := by
  induction h with
  | nil => rfl
  | cons n _ ih => rw [total, total, ih]
  | swap m n ns =>
    rw [total, total, total, total]
    exact Nat.add_left_comm n m (total ns)
  | trans _ _ ih ih' => exact ih.trans ih'

theorem total_replicate (n m : Nat) : total (List.replicate n m) = n * m := by
  induction n with
  | zero => exact (Nat.zero_mul m).symm
  | succ n ih => rw [List.replicate_succ, total, ih, Nat.succ_mul, Nat.add_comm]

/-- The length of lists put together is the sum of their lengths. -/
theorem length_flatten_map {β γ : Type} (f : β → List γ) (bs : List β) :
    (bs.map f).flatten.length = total (bs.map fun b => (f b).length) := by
  induction bs with
  | nil => rfl
  | cons b bs ih =>
    show (f b ++ (bs.map f).flatten).length = (f b).length + total (bs.map fun b => (f b).length)
    rw [List.length_append, ih]

@[simp] theorem variableCount_num (a : α) : (num a).variableCount = 0 := by
  simp [variableCount, leafNames]

@[simp] theorem variableCount_var (x : String) : (var x : Tree α).variableCount = 1 := by
  simp [variableCount, leafNames]

@[simp] theorem variableCount_node (op : Operator) (ts : List (Tree α)) :
    (node op ts).variableCount = totalVariables ts := by
  rw [variableCount, leafNames, length_flatten_map]
  rfl

@[simp] theorem weight_num (a : α) : (num a).weight = 1 := by
  simp [weight, bulk]

@[simp] theorem weight_var (x : String) : (var x : Tree α).weight = 4 := by
  simp [weight, bulk]

@[simp] theorem totalWeight_nil : totalWeight ([] : List (Tree α)) = 0 := rfl

@[simp] theorem totalVariables_nil : totalVariables ([] : List (Tree α)) = 0 := rfl

@[simp] theorem totalWeight_cons (t : Tree α) (ts : List (Tree α)) :
    totalWeight (t :: ts) = t.weight + totalWeight ts := by
  simp [totalWeight, total]

@[simp] theorem totalVariables_cons (t : Tree α) (ts : List (Tree α)) :
    totalVariables (t :: ts) = t.variableCount + totalVariables ts := by
  simp [totalVariables, total]

@[simp] theorem totalWeight_append (ts us : List (Tree α)) :
    totalWeight (ts ++ us) = totalWeight ts + totalWeight us := by
  rw [totalWeight, List.map_append, total_append]
  rfl

@[simp] theorem totalVariables_append (ts us : List (Tree α)) :
    totalVariables (ts ++ us) = totalVariables ts + totalVariables us := by
  rw [totalVariables, List.map_append, total_append]
  rfl

@[simp] theorem totalWeight_replicate (n : Nat) (t : Tree α) :
    totalWeight (List.replicate n t) = n * t.weight := by
  rw [totalWeight, List.map_replicate, total_replicate]

@[simp] theorem totalVariables_replicate (n : Nat) (t : Tree α) :
    totalVariables (List.replicate n t) = n * t.variableCount := by
  rw [totalVariables, List.map_replicate, total_replicate]

/-- Operands in another order weigh the same. -/
theorem totalWeight_perm {ts us : List (Tree α)} (h : ts.Perm us) :
    totalWeight ts = totalWeight us :=
  total_perm (h.map weight)

/-- The order of the trees does not matter to their number of variables. -/
theorem totalVariables_perm {ts us : List (Tree α)} (h : ts.Perm us) :
    totalVariables ts = totalVariables us :=
  total_perm (h.map variableCount)

theorem totalWeight_eq (ts : List (Tree α)) :
    totalWeight ts = total (ts.map bulk) + 3 * totalVariables ts := by
  induction ts with
  | nil => rfl
  | cons t ts ih =>
    simp only [totalWeight_cons, totalVariables_cons, List.map_cons, total, ih, weight]
    omega

/-- A node weighs two, and what its operands do. -/
@[simp] theorem weight_node (op : Operator) (ts : List (Tree α)) :
    (node op ts).weight = 2 + totalWeight ts := by
  rw [weight, variableCount_node, totalWeight_eq, bulk]
  omega

theorem one_le_weight (t : Tree α) : 1 ≤ t.weight := by
  cases t with
  | num a => simp
  | var x => simp
  | node op ts => simp; omega

/-- Operands left out take at least their number off the weight. -/
theorem totalWeight_sublist {ts us : List (Tree α)} (h : ts.Sublist us) :
    totalWeight ts + us.length ≤ totalWeight us + ts.length := by
  induction h with
  | slnil => simp
  | @cons ts us u _ ih =>
    have hu := one_le_weight u
    simp only [totalWeight_cons, List.length_cons]
    omega
  | @cons_cons ts us u _ ih =>
    simp only [totalWeight_cons, List.length_cons]
    omega

/-- To leave out some trees adds no variable. -/
theorem totalVariables_sublist {ts us : List (Tree α)} (h : ts.Sublist us) :
    totalVariables ts ≤ totalVariables us := by
  induction h with
  | slnil => simp
  | @cons ts us u _ ih => simp only [totalVariables_cons]; omega
  | @cons_cons ts us u _ ih => simp only [totalVariables_cons]; omega

/-- A constant is lighter than any operator. -/
theorem num_lighter (a : α) (op : Operator) (ts : List (Tree α)) :
    Lighter (num a) (node op ts) := by
  constructor
  · simp
  · simp only [weight_num, weight_node]; omega

/-- Operands of less weight with no more variables make an operator lighter. -/
theorem node_lighter {op : Operator} {ts us : List (Tree α)}
    (hv : totalVariables ts ≤ totalVariables us) (hw : totalWeight ts < totalWeight us) :
    Lighter (node op ts) (node op us) := by
  constructor
  · simpa using hv
  · simpa using hw

/-- Leaving out operands makes an operator lighter. -/
theorem node_lighter_of_sublist {op : Operator} {ts us : List (Tree α)} (h : ts.Sublist us)
    (hl : ts.length < us.length) : Lighter (node op ts) (node op us) := by
  have hw := totalWeight_sublist h
  exact node_lighter (totalVariables_sublist h) (by omega)

end Fluxion.Tree

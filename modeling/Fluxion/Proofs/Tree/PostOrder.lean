import Mathlib.Data.List.Infix
import Fluxion.Proofs.Tree.Drawing
import Fluxion.Tree.Edit

/-!
# What a walk visits

The calls of a walk answer the places of a tree in post-order, one after another, and after the last
of them nothing however often they are made (`Walk.calls_inPostOrder`). The list of these places is
defined by recursion (`Tree.inPostOrder`): they are all places of the tree, each once, the operands
of an operator before it and from left to right.

A walk remembers the place it visited last, and nothing else of what it has done. It goes down from
an operator unless the last operand of it is remembered, so it must not come upon an operator as
long as a place below that is remembered. This is the invariant (`Walk.Fresh`): it holds at the
start, goes over from an operator to its operands, and holds at an operand after the one on its left
was visited.

Whether a tree has a variable and why it is no expression is told by recursion elsewhere; a walk
that stops at the first place of interest tells the same.
-/

namespace Fluxion

variable {α : Type}

/-! ## Places in post-order -/

namespace Place

/-- The places of some operands of an operator at `path`, from operand number `i` on. -/
def numbered (path : List Nat) (i : Nat) (ts : List (Tree α)) : List (Place α) :=
  ts.mapIdx fun k t => ⟨(i + k) :: path, t⟩

theorem operands_eq (path : List Nat) (t : Tree α) :
    (⟨path, t⟩ : Place α).operands = numbered path 0 t.operands := by
  simp only [operands, numbered, Nat.zero_add]

theorem numbered_cons (path : List Nat) (i : Nat) (t : Tree α) (ts : List (Tree α)) :
    numbered path i (t :: ts) = ⟨i :: path, t⟩ :: numbered path (i + 1) ts := by
  simp only [numbered, List.mapIdx_cons, Nat.add_zero, Nat.add_assoc, Nat.add_comm 1]

theorem mem_numbered {path : List Nat} {i : Nat} {ts : List (Tree α)} {p : Place α}
    (h : p ∈ numbered path i ts) : ∃ j, p.path = j :: path := by
  obtain ⟨k, hk, rfl⟩ := List.mem_mapIdx.1 h
  exact ⟨i + k, rfl⟩

end Place

namespace Tree

mutual

/-- The places of a tree in post-order, an operator after its operands, where `path` leads to the
tree. -/
def inPostOrder (path : List Nat) : Tree α → List (Place α)
  | num a => [⟨path, num a⟩]
  | var x => [⟨path, var x⟩]
  | node op ts => operandsInPostOrder path 0 ts ++ [⟨path, node op ts⟩]

/-- The places below an operator at `path`, from its operand number `i` on. -/
def operandsInPostOrder (path : List Nat) (i : Nat) : List (Tree α) → List (Place α)
  | [] => []
  | t :: ts => inPostOrder (i :: path) t ++ operandsInPostOrder path (i + 1) ts

end

/-- The root comes last, after all places below it. -/
theorem inPostOrder_eq (path : List Nat) (t : Tree α) :
    t.inPostOrder path = operandsInPostOrder path 0 t.operands ++ [⟨path, t⟩] := by
  cases t <;> rfl

theorem postOrder_eq (t : Tree α) : t.postOrder = t.operands.flatMap postOrder ++ [t] := by
  cases t with
  | num a => rw [postOrder]; rfl
  | var x => rw [postOrder]; rfl
  | node op ts => rw [postOrder, operands, List.flatMap_def]

theorem map_tree_operandsInPostOrder {ts : List (Tree α)}
    (ih : ∀ t ∈ ts, ∀ path, (t.inPostOrder path).map Place.tree = t.postOrder) (path : List Nat)
    (i : Nat) : (operandsInPostOrder path i ts).map Place.tree = ts.flatMap postOrder := by
  induction ts generalizing i with
  | nil => rfl
  | cons t ts ihts =>
    obtain ⟨ht, hts⟩ := List.forall_mem_cons.1 ih
    rw [operandsInPostOrder, List.map_append, ht, ihts hts, List.flatMap_cons]

/-- The trees at the places are the subtrees in post-order. -/
theorem map_tree_inPostOrder (path : List Nat) (t : Tree α) :
    (t.inPostOrder path).map Place.tree = t.postOrder := by
  induction t using induction_operands generalizing path with
  | step t ih =>
    rw [inPostOrder_eq, postOrder_eq, List.map_append, map_tree_operandsInPostOrder ih]
    rfl

/-- There are as many places below an operator as nodes in its operands. -/
theorem length_operandsInPostOrder {ts : List (Tree α)}
    (ih : ∀ t ∈ ts, ∀ path, (t.inPostOrder path).length = t.size) (path : List Nat) (i : Nat) :
    (operandsInPostOrder path i ts).length = total (ts.map size) := by
  induction ts generalizing i with
  | nil => rfl
  | cons t ts ihts =>
    obtain ⟨ht, hts⟩ := List.forall_mem_cons.1 ih
    rw [operandsInPostOrder, List.length_append, ht, ihts hts, List.map_cons, total]

/-- There are as many places as nodes. -/
theorem length_inPostOrder (path : List Nat) (t : Tree α) :
    (t.inPostOrder path).length = t.size := by
  induction t using induction_operands generalizing path with
  | step t ih =>
    rw [inPostOrder_eq, size_eq, List.length_append, length_operandsInPostOrder ih, Nat.add_comm]
    rfl

/-! ## Each place once -/

/-- The places below an operator are those that a path through one of its operands leads to. -/
theorem mem_operandsInPostOrder {ts : List (Tree α)}
    (ih : ∀ t ∈ ts, ∀ path (p : Place α),
      p ∈ t.inPostOrder path ↔ ∃ way, p.path = way.reverse ++ path ∧ t.at? way = some p.tree)
    (path : List Nat) (i : Nat) (p : Place α) :
    p ∈ operandsInPostOrder path i ts ↔ ∃ k way, p.path = way.reverse ++ (i + k) :: path ∧
      ts[k]?.bind (fun t => t.at? way) = some p.tree := by
  induction ts generalizing i with
  | nil => simp [operandsInPostOrder]
  | cons t ts ihts =>
    obtain ⟨ht, hts⟩ := List.forall_mem_cons.1 ih
    rw [operandsInPostOrder, List.mem_append, ht, ihts hts]
    constructor
    · rintro (⟨way, hpath, htree⟩ | ⟨k, way, hpath, htree⟩)
      · exact ⟨0, way, hpath, htree⟩
      · refine ⟨k + 1, way, ?_, htree⟩
        rw [hpath, Nat.add_right_comm, Nat.add_assoc]
    · rintro ⟨k, way, hpath, htree⟩
      cases k with
      | zero => exact Or.inl ⟨way, hpath, htree⟩
      | succ k =>
        refine Or.inr ⟨k, way, ?_, htree⟩
        rw [hpath, Nat.add_right_comm, Nat.add_assoc]

/-- The places are those to which some way leads. -/
theorem mem_inPostOrder (path : List Nat) (t : Tree α) (p : Place α) :
    p ∈ t.inPostOrder path ↔ ∃ way, p.path = way.reverse ++ path ∧ t.at? way = some p.tree := by
  induction t using induction_operands generalizing path p with
  | step t ih =>
    rw [inPostOrder_eq, List.mem_append, List.mem_singleton, mem_operandsInPostOrder ih]
    constructor
    · rintro (⟨k, way, hpath, htree⟩ | rfl)
      · refine ⟨k :: way, ?_, ?_⟩
        · rw [hpath, List.reverse_cons, List.append_assoc, Nat.zero_add]
          rfl
        · rw [at?_cons]
          exact htree
      · exact ⟨[], rfl, rfl⟩
    · rintro ⟨way, hpath, htree⟩
      cases way with
      | nil =>
        obtain ⟨path', tree⟩ := p
        cases hpath
        cases htree
        exact Or.inr rfl
      | cons k way =>
        rw [at?_cons] at htree
        refine Or.inl ⟨k, way, ?_, htree⟩
        rw [hpath, List.reverse_cons, List.append_assoc, Nat.zero_add]
        rfl

/-- All places of a tree lie below its root. -/
theorem suffix_of_mem_inPostOrder {path : List Nat} {t : Tree α} {p : Place α}
    (h : p ∈ t.inPostOrder path) : path <:+ p.path := by
  obtain ⟨way, hpath, -⟩ := (mem_inPostOrder path t p).1 h
  exact ⟨way.reverse, hpath.symm⟩

/-- Each place below an operator lies in one of the operands. -/
theorem suffix_of_mem_operandsInPostOrder {path : List Nat} {i : Nat} {ts : List (Tree α)}
    {p : Place α} (h : p ∈ operandsInPostOrder path i ts) :
    ∃ j, i ≤ j ∧ j :: path <:+ p.path := by
  obtain ⟨k, way, hpath, -⟩ :=
    (mem_operandsInPostOrder (fun t _ path p => mem_inPostOrder path t p) path i p).1 h
  exact ⟨i + k, Nat.le_add_right i k, way.reverse, hpath.symm⟩

end Tree

/-! ## Their order -/

namespace Place

/-- Of two paths, the first leads to a place below the other, or the two part at some operator,
where the first goes to an operand further left. -/
def Precedes (p q : List Nat) : Prop :=
  q <:+ p ∧ q ≠ p ∨ ∃ parent i j, i < j ∧ i :: parent <:+ p ∧ j :: parent <:+ q

/-- No path goes through two operands of the same operator. -/
theorem eq_of_suffixes {parent p : List Nat} {i j : Nat} (hi : i :: parent <:+ p)
    (hj : j :: parent <:+ p) : i = j := by
  have hsuffix : i :: parent <:+ j :: parent := List.suffix_of_suffix_length_le hi hj le_rfl
  have heq : i :: parent = j :: parent := hsuffix.eq_of_length rfl
  exact (List.cons.inj heq).1

theorem ne_of_precedes {p q : List Nat} (h : Precedes p q) : p ≠ q := by
  rintro rfl
  rcases h with ⟨-, hne⟩ | ⟨parent, i, j, hij, hi, hj⟩
  · exact hne rfl
  · exact absurd (eq_of_suffixes hi hj) (Nat.ne_of_lt hij)

end Place

namespace Tree

open Place

/-- The places in one operand precede those in the operands to the right. -/
theorem pairwise_operandsInPostOrder {ts : List (Tree α)}
    (ih : ∀ t ∈ ts, ∀ path, (t.inPostOrder path).Pairwise fun p q => Precedes p.path q.path)
    (path : List Nat) (i : Nat) :
    (operandsInPostOrder path i ts).Pairwise fun p q => Precedes p.path q.path := by
  induction ts generalizing i with
  | nil => exact .nil
  | cons t ts ihts =>
    obtain ⟨ht, hts⟩ := List.forall_mem_cons.1 ih
    rw [operandsInPostOrder, List.pairwise_append]
    refine ⟨ht _, ihts hts _, fun p hp q hq => ?_⟩
    obtain ⟨j, hj, hsuffix⟩ := suffix_of_mem_operandsInPostOrder hq
    exact Or.inr ⟨path, i, j, hj, suffix_of_mem_inPostOrder hp, hsuffix⟩

/-- What is below an operator comes before it, and what is below an operand before what is below an
operand further right. -/
theorem pairwise_inPostOrder (path : List Nat) (t : Tree α) :
    (t.inPostOrder path).Pairwise fun p q => Precedes p.path q.path := by
  induction t using induction_operands generalizing path with
  | step t ih =>
    rw [inPostOrder_eq, List.pairwise_append]
    refine ⟨pairwise_operandsInPostOrder ih path 0, List.pairwise_singleton _ _,
      fun p hp q hq => ?_⟩
    obtain rfl := List.mem_singleton.1 hq
    obtain ⟨j, -, hsuffix⟩ := suffix_of_mem_operandsInPostOrder hp
    refine Or.inl ⟨(List.suffix_cons j path).trans hsuffix, fun heq => ?_⟩
    have hlength : (j :: path).length ≤ path.length := by
      rw [show path = p.path from heq]
      exact heq ▸ hsuffix.length_le
    exact absurd hlength (Nat.not_succ_le_self _)

/-- No place comes twice. -/
theorem nodup_inPostOrder (path : List Nat) (t : Tree α) :
    ((t.inPostOrder path).map Place.path).Nodup :=
  List.pairwise_map.2 ((t.pairwise_inPostOrder path).imp ne_of_precedes)

/-- The operands themselves come in their order, each after what is below it. -/
theorem numbered_sublist (path : List Nat) (i : Nat) (ts : List (Tree α)) :
    (numbered path i ts).Sublist (operandsInPostOrder path i ts) := by
  induction ts generalizing i with
  | nil => exact .slnil
  | cons t ts ih =>
    rw [numbered_cons, operandsInPostOrder, inPostOrder_eq, List.append_assoc]
    exact ((ih (i + 1)).cons_cons _).trans (List.sublist_append_right _ _)

/-- What comes before a place within an operand comes before it in the whole. -/
theorem sublist_operandsInPostOrder {ts : List (Tree α)}
    (ih : ∀ t ∈ ts, ∀ path, ∀ p ∈ t.inPostOrder path,
      (p.operands ++ [p]).Sublist (t.inPostOrder path)) (path : List Nat) (i : Nat) :
    ∀ p ∈ operandsInPostOrder path i ts,
      (p.operands ++ [p]).Sublist (operandsInPostOrder path i ts) := by
  induction ts generalizing i with
  | nil => nofun
  | cons t ts ihts =>
    obtain ⟨ht, hts⟩ := List.forall_mem_cons.1 ih
    intro p hp
    rw [operandsInPostOrder] at hp ⊢
    rcases List.mem_append.1 hp with hp | hp
    · exact (ht _ p hp).trans (List.sublist_append_left _ _)
    · exact (ihts hts _ p hp).trans (List.sublist_append_right _ _)

/-- The operands of every place come before it, from left to right. -/
theorem sublist_inPostOrder (path : List Nat) (t : Tree α) :
    ∀ p ∈ t.inPostOrder path, (p.operands ++ [p]).Sublist (t.inPostOrder path) := by
  induction t using induction_operands generalizing path with
  | step t ih =>
    intro p hp
    rw [inPostOrder_eq] at hp ⊢
    rcases List.mem_append.1 hp with hp | hp
    · exact (sublist_operandsInPostOrder ih path 0 p hp).trans (List.sublist_append_left _ _)
    · obtain rfl := List.mem_singleton.1 hp
      rw [operands_eq]
      exact (numbered_sublist path 0 t.operands).append (List.Sublist.refl _)

end Tree

/-! ## The walk -/

namespace Walk

open Fluxion.Tree Fluxion.Place

/-- No place below `path` is remembered. -/
def Fresh (last : Option (List Nat)) (path : List Nat) : Prop := ∀ l ∈ last, path <:+ l → l = path

/-- One call: the next place, if there is one, and the walk after it. Without a next place the walk
stays as it is. -/
def call (w : Walk α) : Option (Place α) × Walk α :=
  match w.next? with
  | some (p, w') => (some p, w')
  | none => (none, w)

/-- The walk after some calls. -/
def after (w : Walk α) : Nat → Walk α
  | 0 => w
  | count + 1 => w.call.2.after count

/-- The next calls of `w` answer the places in `ps`, and leave `w'`. -/
def Produces (w : Walk α) : List (Place α) → Walk α → Prop
  | [], w' => w = w'
  | p :: ps, w' => ∃ v, w.next? = some (p, v) ∧ v.Produces ps w'

theorem Produces.append {u v w : Walk α} {ps qs : List (Place α)} (hleft : u.Produces ps v)
    (hright : v.Produces qs w) : u.Produces (ps ++ qs) w := by
  induction ps generalizing u with
  | nil =>
    have heq : u = v := hleft
    rw [heq]
    exact hright
  | cons p ps ih =>
    obtain ⟨u', hnext, hrest⟩ := hleft
    exact ⟨u', hnext, ih hrest⟩

theorem Produces.single {w v : Walk α} {p : Place α} (h : w.next? = some (p, v)) :
    w.Produces [p] v :=
  ⟨v, h, rfl⟩

/-- Walks with the same next place go on in the same way. -/
theorem Produces.of_next? {v w u : Walk α} {ps : List (Place α)} (hnext : v.next? = w.next?)
    (hps : ps ≠ []) (h : w.Produces ps u) : v.Produces ps u := by
  cases ps with
  | nil => exact absurd rfl hps
  | cons p ps =>
    obtain ⟨w', hw', hrest⟩ := h
    exact ⟨w', hnext.trans hw', hrest⟩

variable {last : Option (List Nat)} {below : List (Place α)} {top : Place α}

/-- An operator whose last operand is not remembered is left for its operands. -/
theorem next?_operands (hne : top.operands ≠ [])
    (hlast : ∀ q ∈ top.operands.getLast?, last ≠ some q.path) :
    next? ⟨top :: below, last⟩ = next? ⟨top.operands ++ top :: below, last⟩ := by
  have hdown : (top.operands.getLast?.any fun q => last != some q.path) = true := by
    rw [List.getLast?_eq_some_getLast hne] at hlast ⊢
    exact bne_iff_ne.2 (hlast _ rfl)
  cases hoperands : top.operands with
  | nil => exact absurd hoperands hne
  | cons first others =>
    show some (visit last below top) = some (visit last (others ++ top :: below) first)
    rw [visit, if_pos hdown]
    split
    · next first' others' heq =>
      rw [hoperands] at heq
      cases heq
      rfl
    · next heq => exact absurd heq hne

/-- A place without operands, or whose last operand is remembered, is visited. -/
theorem next?_visit (hlast : ∀ q ∈ top.operands.getLast?, last = some q.path) :
    next? ⟨top :: below, last⟩ = some (top, ⟨below, some top.path⟩) := by
  have hstay : (top.operands.getLast?.any fun q => last != some q.path) = false := by
    cases hoperand : top.operands.getLast? with
    | none => rfl
    | some q =>
      rw [hlast q hoperand]
      exact bne_self_eq_false _
  show some (visit last below top) = _
  rw [visit, hstay]
  rfl

/-- With nothing below an operator remembered, nothing below its operands is. -/
theorem Fresh.operand {path : List Nat} (h : Fresh last path) (i : Nat) :
    Fresh last (i :: path) := by
  intro l hl hsuffix
  obtain rfl : l = path := h l hl ((List.suffix_cons i path).trans hsuffix)
  exact absurd hsuffix.length_le (Nat.not_succ_le_self _)

/-- The next operand is fresh when one has been visited. -/
theorem fresh_next (i : Nat) (path : List Nat) : Fresh (some (i :: path)) ((i + 1) :: path) := by
  rintro l ⟨⟩ hsuffix
  exact (hsuffix.eq_of_length rfl).symm

/-- No operand of a place that is fresh is remembered. -/
theorem Fresh.ne {path : List Nat} (h : Fresh last path) (i : Nat) : last ≠ some (i :: path) := by
  rintro rfl
  have heq : i :: path = path := h _ rfl (List.suffix_cons i path)
  exact List.cons_ne_self i path heq

/-- From the first of some operands on the walk goes over the places below them all. -/
theorem produces_operands {t : Tree α} {ts : List (Tree α)}
    (ih : ∀ u ∈ t :: ts, ∀ path below last, Fresh last path →
      Produces ⟨⟨path, u⟩ :: below, last⟩ (u.inPostOrder path) ⟨below, some path⟩)
    (path : List Nat) (i : Nat) (hfresh : Fresh last (i :: path)) :
    Produces ⟨numbered path i (t :: ts) ++ below, last⟩ (operandsInPostOrder path i (t :: ts))
      ⟨below, (numbered path i (t :: ts)).getLast?.map Place.path⟩ := by
  induction ts generalizing t i last with
  | nil =>
    have hfirst := ih t List.mem_cons_self (i :: path) below last hfresh
    rw [operandsInPostOrder, operandsInPostOrder, List.append_nil]
    exact hfirst
  | cons u us ihus =>
    obtain ⟨ht, hus⟩ := List.forall_mem_cons.1 ih
    have hfirst := ht (i :: path) (numbered path (i + 1) (u :: us) ++ below) last hfresh
    have hothers := ihus hus (i + 1) (fresh_next i path)
    rw [operandsInPostOrder, numbered_cons]
    rw [numbered_cons, List.getLast?_cons_cons, ← numbered_cons]
    exact hfirst.append hothers

/-- From a place on the walk goes over the places below it and the place itself. -/
theorem produces_inPostOrder (t : Tree α) (path : List Nat) (below : List (Place α))
    (last : Option (List Nat)) (hfresh : Fresh last path) :
    Produces ⟨⟨path, t⟩ :: below, last⟩ (t.inPostOrder path) ⟨below, some path⟩ := by
  induction t using induction_operands generalizing path below last with
  | step t ih =>
    rw [inPostOrder_eq]
    have hoperands := Place.operands_eq path t
    cases hts : t.operands with
    | nil =>
      rw [hts] at hoperands
      exact .single (next?_visit (by rw [hoperands]; nofun))
    | cons u us =>
      rw [hts] at hoperands ih
      have hbelow : Produces ⟨numbered path 0 (u :: us) ++ ⟨path, t⟩ :: below, last⟩
          (operandsInPostOrder path 0 (u :: us))
          ⟨⟨path, t⟩ :: below, (numbered path 0 (u :: us)).getLast?.map Place.path⟩ :=
        produces_operands ih path 0 (hfresh.operand 0)
      -- the last operand was the last place below, so now the operator is visited
      have hself : next? ⟨⟨path, t⟩ :: below, (numbered path 0 (u :: us)).getLast?.map Place.path⟩ =
          some (⟨path, t⟩, ⟨below, some path⟩) := by
        refine next?_visit fun q hq => ?_
        rw [hoperands] at hq
        rw [hq]
        rfl
      have hall := hbelow.append (.single hself)
      refine hall.of_next? ?_ (List.append_ne_nil_of_right_ne_nil _ (List.cons_ne_nil _ _))
      rw [← hoperands]
      refine next?_operands ?_ fun q hq => ?_
      · rw [hoperands, numbered_cons]
        exact List.cons_ne_nil _ _
      · rw [hoperands] at hq
        obtain ⟨j, hj⟩ := mem_numbered (List.mem_of_getLast? hq)
        rw [hj]
        exact hfresh.ne j

/-- A walk over a tree visits its places in post-order, and then there is none left. -/
theorem produces_start (t : Tree α) :
    (start t).Produces (t.inPostOrder []) ⟨[], some []⟩ :=
  produces_inPostOrder t [] [] none nofun

/-! ## Calls -/

/-- Calls answer what is produced, and nothing once no place is left. -/
theorem Produces.call_after {w w' : Walk α} {ps : List (Place α)} (h : w.Produces ps w')
    (hend : w'.next? = none) (count : Nat) : (w.after count).call.1 = ps[count]? := by
  induction ps generalizing w count with
  | nil =>
    obtain rfl : w = w' := h
    have hcall : w.call = (none, w) := by rw [call, hend]
    have hstay : w.after count = w := by
      induction count with
      | zero => rfl
      | succ count ih => rw [after, hcall, ih]
    rw [hstay, hcall]
    rfl
  | cons p ps ih =>
    obtain ⟨v, hnext, hrest⟩ := h
    have hcall : w.call = (some p, v) := by rw [call, hnext]
    cases count with
    | zero => rw [after, hcall]; rfl
    | succ count => rw [after, hcall, ih hrest, List.getElem?_cons_succ]

/-- The first calls answer what the walk produces. -/
theorem Produces.take {w w' : Walk α} {ps : List (Place α)} (h : w.Produces ps w') :
    w.take ps.length = ps := by
  induction ps generalizing w with
  | nil => rfl
  | cons p ps ih =>
    obtain ⟨v, hnext, hrest⟩ := h
    rw [List.length_cons, Walk.take, hnext]
    exact congrArg (p :: ·) (ih hrest)

/-- The list of visited places is the one by recursion. -/
theorem places_eq (t : Tree α) : places t = t.inPostOrder [] := by
  have htake := (produces_start t).take
  rwa [length_inPostOrder] at htake

/-- The calls of a walk answer the places of the tree one after another as recursion lists them, and
nothing ever after. These are the places of all subtrees in post-order, as many as the tree has
nodes and none of them twice; the operands of each place come before it, from left to right. -/
theorem calls_inPostOrder (t : Tree α) :
    (∀ count, ((start t).after count).call.1 = (t.inPostOrder [])[count]?) ∧
      (t.inPostOrder []).map Place.tree = t.postOrder ∧
      (t.inPostOrder []).length = t.size ∧
      (∀ p : Place α, p ∈ t.inPostOrder [] ↔ t.at? p.path.reverse = some p.tree) ∧
      ((t.inPostOrder []).map Place.path).Nodup ∧
      ∀ p ∈ t.inPostOrder [], (p.operands ++ [p]).Sublist (t.inPostOrder []) := by
  refine ⟨fun count => (produces_start t).call_after rfl count, map_tree_inPostOrder [] t,
    length_inPostOrder [] t, fun p => ?_, nodup_inPostOrder [] t, sublist_inPostOrder [] t⟩
  rw [mem_inPostOrder]
  constructor
  · rintro ⟨way, hpath, htree⟩
    rw [hpath, List.append_nil, List.reverse_reverse]
    exact htree
  · intro htree
    exact ⟨p.path.reverse, by rw [List.reverse_reverse, List.append_nil], htree⟩

end Walk

/-! ## What rests on the walk -/

namespace Tree

/-- The name of a variable. -/
def leafName? : Tree α → Option String
  | var x => some x
  | _ => none

/-- The walk comes upon the variables at the leaves from left to right. -/
theorem leafNames_eq (t : Tree α) :
    t.leafNames = (Walk.places t).filterMap fun p => p.tree.leafName? := by
  have hnames : t.leafNames = t.postOrder.filterMap leafName? := by
    induction t using Tree.operands_induction with
    | num a => rw [leafNames, postOrder]; rfl
    | var x => rw [leafNames, postOrder]; rfl
    | node op ts ih =>
      rw [leafNames, postOrder_eq, List.filterMap_append, operands, List.filterMap_flatMap,
        List.map_congr_left ih, ← List.flatMap_def]
      exact (List.append_nil _).symm
  rw [hnames, ← map_tree_inPostOrder [], Walk.places_eq, List.filterMap_map]
  rfl

/-- A tree has a variable if the walk comes upon one. -/
theorem hasVariable_iff (t : Tree α) :
    t.hasVariable = true ↔ ∃ p ∈ Walk.places t, ∃ x, p.tree = .var x := by
  rw [hasVariable, leafNames_eq, Bool.not_eq_true', List.isEmpty_eq_false_iff_exists_mem]
  simp only [List.mem_filterMap]
  constructor
  · rintro ⟨x, p, hp, hx⟩
    refine ⟨p, hp, x, ?_⟩
    cases htree : p.tree with
    | num a => rw [htree] at hx; cases hx
    | var y => rw [htree] at hx; cases hx; rfl
    | node op ts => rw [htree] at hx; cases hx
  · rintro ⟨p, hp, x, hx⟩
    exact ⟨x, p, hp, by rw [hx]; rfl⟩

/-- Why an operator has no place in an expression with a number of operands, whatever these are. -/
def refusal? : Tree α → Option NotExpression
  | node (.nary op) ts => if ts.length = 0 then some (.arity op.sign .atLeastOne 0) else none
  | node (.func f) ts => if ts.length = 1 then none else some (.arity f.name .exactlyOne ts.length)
  | node (.call name) ts =>
    match Func.ofName? name with
    | some _ => some (.arity name .exactlyOne ts.length)
    | none => some (.unknownFunction name (NotExpression.suggestions name))
  | node op _ => some (.statement op.label)
  | _ => none

/-- Operands that are expressions make one unless their operator is refused. -/
theorem ofNode_eq_error_iff {op : Operator} {ts : List (Tree α)} {es : List (Expr α)}
    (hlength : ts.length = es.length) (e : NotExpression) :
    Expr.ofNode op es = .error e ↔ (node op ts).refusal? = some e := by
  cases op with
  | nary op =>
    cases es with
    | nil => simp [Expr.ofNode, refusal?, hlength]
    | cons d es => simp [Expr.ofNode, refusal?, hlength]
  | func f =>
    match es with
    | [] => simp [Expr.ofNode, refusal?, hlength]
    | [d] => simp [Expr.ofNode, refusal?, hlength]
    | d :: d' :: es => simp [Expr.ofNode, refusal?, hlength]
  | call name =>
    simp only [Expr.ofNode, refusal?, hlength]
    cases Func.ofName? name <;> simp
  | _ => simp [Expr.ofNode, refusal?]

/-- A list is refused for the reason of the first entry that has one. -/
theorem mapM_eq_error_iff {β γ ε : Type} {f : β → Except ε γ} {g : β → Option ε} {bs : List β}
    (h : ∀ b ∈ bs, ∀ e, f b = .error e ↔ g b = some e) (e : ε) :
    bs.mapM f = .error e ↔ bs.findSome? g = some e := by
  induction bs with
  | nil => exact ⟨nofun, nofun⟩
  | cons b bs ih =>
    obtain ⟨hb, hbs⟩ := List.forall_mem_cons.1 h
    rw [List.mapM_cons, List.findSome?_cons]
    -- the first entry that fails decides both
    cases hf : f b with
    | error e' =>
      rw [(hb e').1 hf]
      constructor
      · rintro ⟨⟩
        rfl
      · rintro ⟨⟩
        rfl
    | ok c =>
      have hg : g b = none := Option.eq_none_iff_forall_ne_some.2 fun e' he' => by
        rw [(hb e').2 he'] at hf
        cases hf
      rw [hg, ← ih hbs]
      cases bs.mapM f with
      | error e' => exact Iff.rfl
      | ok cs => exact ⟨nofun, nofun⟩

/-- A search through lists put together is one through each of them. -/
theorem findSome?_flatMap {β γ δ : Type} (g : γ → Option δ) (f : β → List γ) (bs : List β) :
    (bs.flatMap f).findSome? g = bs.findSome? fun b => (f b).findSome? g := by
  induction bs with
  | nil => rfl
  | cons b bs ih =>
    rw [List.flatMap_cons, List.findSome?_append, ih, List.findSome?_cons]
    cases (f b).findSome? g <;> rfl

/-- A tree is refused for the first place of the walk that is refused. -/
theorem toExpr_eq_error_iff (t : Tree α) (e : NotExpression) :
    t.toExpr = .error e ↔ (Walk.places t).findSome? (fun p => p.tree.refusal?) = some e := by
  -- on the list of trees in post-order, by induction; the places are put in only at the end
  have hfirst : ∀ e, t.toExpr = .error e ↔ t.postOrder.findSome? refusal? = some e := by
    induction t using Tree.operands_induction with
    | num a =>
      intro e
      rw [toExpr, postOrder]
      constructor
      · intro h
        cases h
      · intro h
        cases h
    | var x =>
      intro e
      rw [toExpr, postOrder]
      constructor
      · intro h
        cases h
      · intro h
        cases h
    | node op ts ih =>
      intro e
      have hoperands := mapM_eq_error_iff ih
      rw [postOrder_eq, List.findSome?_append, operands, findSome?_flatMap, toExpr]
      cases hts : ts.mapM toExpr with
      | error e' =>
        rw [(hoperands e').1 hts]
        constructor
        · rintro ⟨⟩
          rfl
        · rintro ⟨⟩
          rfl
      | ok es =>
        have hnone : (ts.findSome? fun t => t.postOrder.findSome? refusal?) = none :=
          Option.eq_none_iff_forall_ne_some.2 fun e' he' => by
            rw [(hoperands e').2 he'] at hts
            cases hts
        -- the operands are trees of expressions, so the refusal is that of the node itself
        have htrees : es.map Expr.toTree = ts :=
          map_of_mapM_eq_ok (fun u _ d hd => Expr.toTree_of_toExpr hd) hts
        rw [hnone, Option.none_or, List.findSome?_singleton]
        exact ofNode_eq_error_iff (by rw [← htrees, List.length_map]) e
  rw [hfirst, ← map_tree_inPostOrder [], Walk.places_eq, List.findSome?_map]
  rfl

end Tree

end Fluxion

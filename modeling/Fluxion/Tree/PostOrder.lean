import Fluxion.Tree.Basic

/-!
# Walking a tree

In post-order every operand comes before its operator, operands from left to right. `postOrder`
lists the subtrees so by recursion. A `Walk` does it one step at a time: it holds the places still
to be visited, the next on top, and the place visited last. An operator on top is visited when its
last operand was the place visited last; otherwise its operands are put on top of it.

Places, not trees, are compared, since equal subtrees may stand at several places.
-/

namespace Fluxion

namespace Tree

variable {α : Type}

/-- Every subtree, operands before their operator. -/
def postOrder : Tree α → List (Tree α)
  | num a => [num a]
  | var x => [var x]
  | node op ts => (ts.map postOrder).flatten ++ [node op ts]

end Tree

/-- A subtree and the operand numbers that lead to it, the last number first. -/
structure Place (α : Type) where
  path : List Nat
  tree : Tree α

namespace Place

variable {α : Type}

/-- The places of the operands, from left to right. -/
def operands (p : Place α) : List (Place α) :=
  p.tree.operands.mapIdx fun i t => ⟨i :: p.path, t⟩

/-- The first operand is smaller than the operator on it, so going down comes to an end. -/
theorem operands_tree_lt {p q : Place α} {qs : List (Place α)} (h : p.operands = q :: qs) :
    sizeOf q.tree < sizeOf p.tree := by
  obtain ⟨path, tree⟩ := p
  cases tree with
  | num a => simp [operands, Tree.operands] at h
  | var x => simp [operands, Tree.operands] at h
  | node op ts =>
    cases ts with
    | nil => simp [operands, Tree.operands] at h
    | cons t ts =>
      simp only [operands, Tree.operands, List.mapIdx_cons, List.cons.injEq] at h
      rw [← h.1]
      simp only [Tree.node.sizeOf_spec, List.cons.sizeOf_spec]
      omega

end Place

/-- A walk in progress: the places still to be visited, and the path of the place visited last. -/
structure Walk (α : Type) where
  stack : List (Place α)
  last : Option (List Nat)

namespace Walk

variable {α : Type}

/-- The walk that has visited nothing yet. -/
def start (t : Tree α) : Walk α := ⟨[⟨[], t⟩], none⟩

/-- The next place from `top` with `below` it on the stack, and the walk after it. -/
def visit (last : Option (List Nat)) (below : List (Place α)) (top : Place α) :
    Place α × Walk α :=
  if top.operands.getLast?.any fun operand => last != some operand.path then
    match _h : top.operands with
    | first :: others => visit last (others ++ top :: below) first
    | [] => (top, ⟨below, some top.path⟩)
  else (top, ⟨below, some top.path⟩)
termination_by sizeOf top.tree
decreasing_by exact Place.operands_tree_lt _h

/-- The next place and the walk after it, or nothing once every place is visited. -/
def next? (w : Walk α) : Option (Place α × Walk α) :=
  match w.stack with
  | [] => none
  | top :: below => some (visit w.last below top)

/-- The next places of a walk, at most `count` of them. -/
def take (w : Walk α) : Nat → List (Place α)
  | 0 => []
  | count + 1 =>
    match w.next? with
    | none => []
    | some (p, w) => p :: w.take count

/-- The places of a tree in the order of the walk. -/
def places (t : Tree α) : List (Place α) := (start t).take t.size

end Walk

end Fluxion

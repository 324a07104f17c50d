/-
Ordered trees with a value at every node.

Both the rendered layout and the surface built from it are such trees.  A node
is reached by its address, the child indices on the way from the root.
-/

namespace FormulaMap

inductive Tree (α : Type) where
  | node (value : α) (children : List (Tree α))
  deriving Inhabited

/-- Child indices from the root down. -/
abbrev Address := List Nat

namespace Tree

variable {α β : Type}

def value : Tree α → α
  | node a _ => a

def children : Tree α → List (Tree α)
  | node _ cs => cs

mutual

def map (f : α → β) : Tree α → Tree β
  | node a cs => node (f a) (mapAll f cs)

def mapAll (f : α → β) : List (Tree α) → List (Tree β)
  | [] => []
  | t :: ts => map f t :: mapAll f ts

end

mutual

/-- The values, each node before its children and children in order. -/
def preorder : Tree α → List α
  | node a cs => a :: preorderAll cs

def preorderAll : List (Tree α) → List α
  | [] => []
  | t :: ts => preorder t ++ preorderAll ts

end

mutual

/-- The values of the nodes without children, in order. -/
def leaves : Tree α → List α
  | node a [] => [a]
  | node _ (t :: ts) => leavesAll (t :: ts)

def leavesAll : List (Tree α) → List α
  | [] => []
  | t :: ts => leaves t ++ leavesAll ts

end

mutual

/-- Every subtree, the tree itself first. -/
def subtrees : Tree α → List (Tree α)
  | node a cs => node a cs :: subtreesAll cs

def subtreesAll : List (Tree α) → List (Tree α)
  | [] => []
  | t :: ts => subtrees t ++ subtreesAll ts

end

mutual

def size : Tree α → Nat
  | node _ cs => sizeAll cs + 1

def sizeAll : List (Tree α) → Nat
  | [] => 0
  | t :: ts => size t + sizeAll ts

end

/-- The subtree at an address. -/
def at? (t : Tree α) : Address → Option (Tree α)
  | [] => some t
  | i :: rest => t.children[i]?.bind fun c => c.at? rest

/-- Changes the value at an address; an address outside the tree changes nothing. -/
def modifyAt (f : α → α) (t : Tree α) : Address → Tree α
  | [] => node (f t.value) t.children
  | i :: rest => node t.value (t.children.modify i fun c => c.modifyAt f rest)

mutual

/-- Every value with its address, in preorder. -/
def entries : Tree α → List (Address × α)
  | node a cs => ([], a) :: entriesFrom 0 cs

/-- The entries below a list of children, of which the first has index `i`. -/
def entriesFrom (i : Nat) : List (Tree α) → List (Address × α)
  | [] => []
  | t :: ts => (entries t).map (fun e => (i :: e.1, e.2)) ++ entriesFrom (i + 1) ts

end

theorem mapAll_eq (f : α → β) (ts : List (Tree α)) : mapAll f ts = ts.map (map f) := by
  induction ts with
  | nil => rfl
  | cons t ts ih => simp [mapAll, ih]

mutual

theorem preorder_map (f : α → β) : ∀ t : Tree α, (t.map f).preorder = t.preorder.map f
  | node a cs => by simp [map, preorder, preorderAll_map f cs]

theorem preorderAll_map (f : α → β) :
    ∀ ts : List (Tree α), preorderAll (mapAll f ts) = (preorderAll ts).map f
  | [] => rfl
  | t :: ts => by simp [mapAll, preorderAll, preorder_map f t, preorderAll_map f ts]

end

end Tree
end FormulaMap

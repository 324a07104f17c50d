/-
Pages: layouts whose elements know what holds them.

An element is known by the number it got when it was made.  It is made by itself, and
adding it to another one sets its parent and puts it behind the children that are there.
So a page is built from the outside in: an element is made, and what is built for its
children is added to it in turn.  Writing a page looks at nothing but the elements.
-/
import FormulaMap.Layout.Data

namespace FormulaMap

/-- An element on a page, with the number of the one that holds it. -/
structure Member (α : Type) where
  number : Nat
  parent : Option Nat
  element : Element α

abbrev Page (α : Type) := Tree (Member α)

namespace Page

variable {α : Type}

/-- The layout that a page shows. -/
def layout (p : Page α) : Layout α := p.map (·.element)

/-! ## Building -/

/-- A new element; the state is the next number. -/
def make (e : Element α) : StateM Nat (Page α) := fun next => (.node ⟨next, none, e⟩ [], next + 1)

/-- Puts `child` into the element that `p` begins with. -/
def add (p child : Page α) : Page α :=
  let held : Member α := { child.value with parent := some p.value.number }
  .node p.value (p.children ++ [.node held child.children])

mutual

def ofLayout : Layout α → StateM Nat (Page α)
  | .node e ts => do
    let p ← make e
    addAll p ts

/-- Adds what is built for each layout in turn. -/
def addAll (p : Page α) : List (Layout α) → StateM Nat (Page α)
  | [] => pure p
  | t :: ts => do
    let child ← ofLayout t
    addAll (p.add child) ts

end

/-! ## Snapshots -/

def ofJson (v : Json) : Checked (Page Float) :=
  (Layout.ofJson v).map fun t => ((ofLayout t).run 0).1

def toJson (p : Page Float) : Json := p.layout.toJson

/-! ## Going up -/

/-- The element that holds another one. -/
def holder? (p : Page α) (x : Member α) : Option (Member α) :=
  x.parent.bind fun k => p.preorder.find? (·.number == k)

/-- The elements from one on upwards, at most `steps` above it. -/
def upFrom (p : Page α) : Nat → Member α → List (Member α)
  | 0, x => [x]
  | steps + 1, x =>
    x ::
      match p.holder? x with
      | some h => p.upFrom steps h
      | none => []

end Page
end FormulaMap

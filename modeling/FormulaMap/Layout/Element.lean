/-
Rendered layouts: trees of typeset elements.

An element has class names, text of its own, a box on the page and data
attributes.  The content of a layout is all its text in document order.
-/
import FormulaMap.Fields
import FormulaMap.Geometry.Box
import FormulaMap.Tree

namespace FormulaMap

structure Element (α : Type) where
  classes : List String
  text : String
  box : Box α
  data : Fields String

abbrev Layout (α : Type) := Tree (Element α)

variable {α : Type}

namespace Element

def hasClass (e : Element α) (name : String) : Bool := e.classes.contains name

/-- The value of a data attribute; an empty one counts as absent. -/
def attribute? (e : Element α) (key : String) : Option String :=
  (Fields.get? key e.data).filter fun s => !s.isEmpty

def setAttribute (key value : String) (e : Element α) : Element α :=
  { e with data := e.data.put key value }

end Element

namespace Layout

/-- The text of the element and of everything below it. -/
def content (t : Layout α) : String :=
  String.ofList (t.preorder.flatMap fun e => e.text.toList)

/-! ## Selecting -/

mutual

/-- The elements below `t` of class `inner` inside one of class `outer`, with
their addresses; `here` is the address of `t`, and `inside` says that an element
above it is of class `outer`. -/
def selectBelow (outer inner : String) (inside : Bool) (here : Address) :
    Layout α → List (Address × Layout α)
  | .node e cs => selectAmong outer inner (inside || e.hasClass outer) here 0 cs

/-- The same for a list of children, the first of which has index `i`. -/
def selectAmong (outer inner : String) (inside : Bool) (here : Address) (i : Nat) :
    List (Layout α) → List (Address × Layout α)
  | [] => []
  | t :: ts =>
    (if inside && t.value.hasClass inner then [(here ++ [i], t)] else []) ++
      selectBelow outer inner inside (here ++ [i]) t ++
      selectAmong outer inner inside here (i + 1) ts

end

/-- The elements below `t` of class `inner` that lie inside one of class `outer`,
`t` itself included as such, in document order. -/
def select (outer inner : String) (here : Address) (t : Layout α) : List (Address × Layout α) :=
  selectBelow outer inner false here t

end Layout
end FormulaMap

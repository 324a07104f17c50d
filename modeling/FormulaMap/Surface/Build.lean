/-
Building a surface map from a layout.

The walk visits the base groups of the typeset formula.  Elements that only
arrange others, and those that are empty or too small to be seen, leave no node,
and what is in them belongs to the node above.  An element whose text runs
digits and operator signs together is cut into nodes of equal width.  The walk
gives a forest of drafts; numbers and identifiers are then given in preorder.
-/
import FormulaMap.Geometry.Tolerances
import FormulaMap.Layout.Element
import FormulaMap.Surface.Node

namespace FormulaMap

/-- A node before it has its place in the map. -/
structure Draft (α : Type) where
  category : Category
  box : Box α
  source : Address
  text : String
  synthetic : Bool

namespace Draft

variable {α : Type}

/-- A draft that can be clicked: of an atomic kind, and a bar or with text. -/
def isAtom (d : Draft α) : Bool :=
  (d.category.atomic || d.category.kind.isAtomic) && (d.category.kind = .fracBar || !d.text.isEmpty)

def node (d : Draft α) (above : List Nat) (number : Nat) : Node α where
  number := number
  above := above
  id := Node.idOf d.category.stem number
  kind := d.category.kind
  role := d.category.role
  box := d.box
  text := d.text
  source := d.source
  synthetic := d.synthetic
  atom := d.isAtom
  path := none
  operator := none
  operatorRank := none
  value := none
  slot := none
  marks := .none

mutual

/-- Gives numbers in preorder from `number` on. -/
def place (above : List Nat) (number : Nat) : Tree (Draft α) → Tree (Node α)
  | .node d ts => .node (d.node above number) (placeAll (number :: above) (number + 1) ts)

def placeAll (above : List Nat) (number : Nat) : List (Tree (Draft α)) → List (Tree (Node α))
  | [] => []
  | t :: ts => place above number t :: placeAll above (number + t.size) ts

end

end Draft

namespace SurfaceMap

open Coordinate

variable {α : Type} [Coordinate α]

/-- The nodes of a text that is cut into segments. -/
def segmentDrafts (here : Address) (box : Box α) (text : List Char) : List (Tree (Draft α)) :=
  let segments := Segment.scan text
  segments.zipIdx.map fun (s, i) =>
    .node ⟨s.kind.category, box.slice i segments.length, here, s.text, true⟩ []

def isVisible (t : Tolerances α) (box : Box α) : Bool :=
  decide (t.minVisible < box.width) && decide (t.minVisible < box.height)

mutual

/-- The drafts of an element and of what is in it. -/
def walk (t : Tolerances α) (origin : Box α) (here : Address) :
    Layout α → List (Tree (Draft α))
  | .node e ts =>
    let text := Text.trimChars (Layout.content (.node e ts)).toList
    let box := e.box.relativeTo origin
    if Category.isStructural e.classes then walkAll t origin here 0 ts
    else if Category.isMixedContent text then
      match ts with
      | [] => segmentDrafts here box text
      | _ :: _ => walkAll t origin here 0 ts
    else
      let category := Category.of e.classes (String.ofList text)
      if category.kind = .other && (text.isEmpty || !isVisible t box) then walkAll t origin here 0 ts
      else
        [.node ⟨category, box, here, String.ofList text, false⟩ (walkAll t origin here 0 ts)]

/-- The drafts of a list of children, the first of which has index `i`. -/
def walkAll (t : Tolerances α) (origin : Box α) (here : Address) (i : Nat) :
    List (Layout α) → List (Tree (Draft α))
  | [] => []
  | l :: ls => walk t origin (here ++ [i]) l ++ walkAll t origin here (i + 1) ls

end

def rootNode (origin : Box α) (container : Address) : Node α where
  number := 0
  above := []
  id := "root"
  kind := .root
  role := "root"
  box := ⟨ofNat 0, ofNat 0, origin.width, origin.height⟩
  text := ""
  source := container
  synthetic := false
  atom := false
  path := none
  operator := none
  operatorRank := none
  value := none
  slot := none
  marks := .none

/-- Where the renderer puts the formula, and the groups in it. -/
def formulaClass : String := "katex-html"
def groupClass : String := "base"

/-- The map of the layout below a container. -/
def build (t : Tolerances α) (container : Address) (layout : Layout α) : SurfaceMap α :=
  let origin := layout.value.box
  let groups := layout.select formulaClass groupClass container
  let drafts := groups.flatMap fun (here, group) => walk t origin here group
  { root := .node (rootNode origin container) (Draft.placeAll [0] 1 drafts)
    origin := origin
    container := container }

end SurfaceMap
end FormulaMap

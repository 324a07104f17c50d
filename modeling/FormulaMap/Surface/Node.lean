/-
Surface nodes and surface maps.

A node stands for a typeset piece of the formula.  It knows its number in the
walk over the layout and the numbers of the nodes above it, so that it can be
found again after it has been changed.  What joins it to the expression (path,
operator, value) is filled in later.  An atom is a node that can be clicked.
-/
import FormulaMap.Geometry.Box
import FormulaMap.Number.Base36
import FormulaMap.Order
import FormulaMap.Surface.Category
import FormulaMap.Tree

namespace FormulaMap

/-- The texts of a mixed number. -/
structure MixedParts where
  whole : String
  numerator : String
  denominator : String
  deriving DecidableEq, Repr

/-- What the passes over the atoms remember about a node. -/
structure Marks where
  /-- The hit zone of this fraction bar has been widened. -/
  widened : Bool
  /-- The bar of the fraction that this whole number is joined with. -/
  bar : Option String
  /-- The whole number of the mixed number that this node is a part of. -/
  partOf : Option String
  mixed : Option MixedParts
  /-- The path was read from a data attribute. -/
  recovered : Bool
  deriving DecidableEq, Repr

namespace Marks

def none : Marks := ⟨false, .none, .none, .none, false⟩

end Marks

structure Node (α : Type) where
  /-- The place in the walk; the root has zero. -/
  number : Nat
  /-- The numbers of the nodes above, nearest first. -/
  above : List Nat
  id : String
  kind : Kind
  role : String
  box : Box α
  text : String
  /-- The element that the node was made from. -/
  source : Address
  /-- One of several nodes that share an element. -/
  synthetic : Bool
  atom : Bool
  path : Option String
  operator : Option String
  /-- How many operators with the same path come before. -/
  operatorRank : Option Nat
  value : Option String
  /-- The number of the operator in reading order. -/
  slot : Option Nat
  marks : Marks
  deriving DecidableEq, Repr

namespace Node

variable {α : Type}

/-- The identifier of the node with this number. -/
def idOf (stem : String) (number : Nat) : String := stem ++ "-" ++ Base36.text number

def isAbove (a b : Node α) : Bool := b.above.contains a.number

/-- Whether one of two nodes lies below the other. -/
def related (a b : Node α) : Bool := a.isAbove b || b.isAbove a

def depth (n : Node α) : Nat := n.above.length

/-- The path, if the node has been joined; an empty path joins to nothing. -/
def joined? (n : Node α) : Option String := n.path.filter fun p => !p.isEmpty

def isJoined (n : Node α) : Bool := n.joined?.isSome

/-- The mixed number that the node is a part of. -/
def mixedOwner? (n : Node α) : Option String := n.marks.partOf.filter fun p => !p.isEmpty

def isMixedPart (n : Node α) : Bool := n.mixedOwner?.isSome

/-- The text without white space around it. -/
def glyphs (n : Node α) : List Char := Text.trimChars n.text.toList

end Node

structure SurfaceMap (α : Type) where
  root : Tree (Node α)
  /-- The box of the container, which the boxes of the nodes are relative to. -/
  origin : Box α
  container : Address

namespace SurfaceMap

variable {α : Type}

def nodes (m : SurfaceMap α) : List (Node α) := m.root.preorder

def atoms (m : SurfaceMap α) : List (Node α) := m.nodes.filter (·.atom)

def mapNodes (f : Node α → Node α) (m : SurfaceMap α) : SurfaceMap α :=
  { m with root := m.root.map f }

def nodeAt? (m : SurfaceMap α) (number : Nat) : Option (Node α) :=
  m.nodes.find? (·.number == number)

def find? (m : SurfaceMap α) (id : String) : Option (Node α) := m.nodes.find? (·.id == id)

/-- Changes the node with a number. -/
def update (number : Nat) (f : Node α → Node α) (m : SurfaceMap α) : SurfaceMap α :=
  m.mapNodes fun n => if n.number = number then f n else n

/-- Puts changed nodes back in their places. -/
def restore (changed : List (Node α)) (m : SurfaceMap α) : SurfaceMap α :=
  m.mapNodes fun n => (changed.find? (·.number == n.number)).getD n

/-- The atoms that carry a path. -/
def atomsAt (m : SurfaceMap α) (path : String) : List (Node α) :=
  m.atoms.filter fun a => a.path == some path

/-- The last node made from an element; the root belongs to no element. -/
def nodeOfElement? (m : SurfaceMap α) (element : Address) : Option (Node α) :=
  (m.nodes.tail.filter fun n => n.source == element).getLast?

end SurfaceMap
end FormulaMap

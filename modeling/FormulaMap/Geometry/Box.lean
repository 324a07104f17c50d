/-
Axis-parallel boxes, given by their four sides.

The vertical axis points down, so `top` is the smaller coordinate.  Nothing asks
a box to be the right way round: `width` and `height` are cut off at zero, while
overlaps and centres take the sides as they are.
-/
import FormulaMap.Geometry.Coordinate

namespace FormulaMap

structure Box (α : Type) where
  left : α
  top : α
  right : α
  bottom : α
  deriving DecidableEq, Repr

namespace Box

open Coordinate

variable {α : Type} [Coordinate α]

def width (b : Box α) : α := larger (ofNat 0) (b.right - b.left)

def height (b : Box α) : α := larger (ofNat 0) (b.bottom - b.top)

def area (b : Box α) : α := b.width * b.height

def centerX (b : Box α) : α := (b.left + b.right) / ofNat 2

def midY (b : Box α) : α := (b.top + b.bottom) / ofNat 2

/-- Whether a point lies in the box, its sides included, or above or below it by
at most `slack`. -/
def contains (b : Box α) (x y slack : α) : Bool :=
  decide (b.left ≤ x) && decide (x ≤ b.right) &&
    decide (b.top - slack ≤ y) && decide (y ≤ b.bottom + slack)

/-- The box as seen from the upper left corner of `origin`. -/
def relativeTo (b origin : Box α) : Box α where
  left := b.left - origin.left
  top := b.top - origin.top
  right := b.right - origin.left
  bottom := b.bottom - origin.top

/-- How far two boxes share a horizontal range; negative when they are apart. -/
def horizontalOverlap (a b : Box α) : α := smaller a.right b.right - larger a.left b.left

def verticalOverlap (a b : Box α) : α := smaller a.bottom b.bottom - larger a.top b.top

/-- Column `index` of `count` columns of equal width; the box itself when there
are none. -/
def slice (b : Box α) (index count : Nat) : Box α :=
  if count = 0 then b
  else
    let step := (b.right - b.left) / ofNat count
    let left := b.left + step * ofNat index
    { left := left, top := b.top, right := left + step, bottom := b.bottom }

/-- The box moved by an offset. -/
def shift (b : Box α) (dx dy : α) : Box α where
  left := b.left + dx
  top := b.top + dy
  right := b.right + dx
  bottom := b.bottom + dy

end Box
end FormulaMap

/-
The margins and ratios that decide what counts as near, overlapping or visible.
-/
import FormulaMap.Geometry.Coordinate

namespace FormulaMap

structure Tolerances (α : Type) where
  /-- How far the hit zone of a fraction bar reaches beyond the bar. -/
  barExpansion : α
  /-- The widest gap between a whole number and the bar of its fraction. -/
  mixedGap : α
  /-- The share of the lower height by which a minus overlaps its predecessor. -/
  minusOverlap : α
  /-- The share of the narrower width by which neighbours in a column overlap. -/
  columnOverlap : α
  /-- How far the centre of an operand may lie from that of its operator. -/
  operandCenter : α
  /-- How far above or below an operator a point still hits it. -/
  operatorHit : α
  /-- A size up to this one is invisible. -/
  minVisible : α
  deriving Repr

namespace Tolerances

variable {α : Type} [Coordinate α]

open Coordinate in
def standard : Tolerances α where
  barExpansion := ofNat 3
  mixedGap := ofNat 22
  minusOverlap := ofNat 1 / ofNat 4
  columnOverlap := ofNat 1 / ofNat 2
  operandCenter := ofNat 20
  operatorHit := ofNat 3
  minVisible := ofNat 1 / ofNat 2

end Tolerances
end FormulaMap

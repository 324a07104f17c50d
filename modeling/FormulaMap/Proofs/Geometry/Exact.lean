/-
Exact coordinates.

Over the rationals the operations of the geometry are the usual ones: `smaller` and `larger`
are the minimum and the maximum.
-/
import FormulaMap.Geometry.Box
import Mathlib.Algebra.Order.Field.Rat
import Mathlib.Tactic.Linarith

namespace FormulaMap

namespace Coordinate

theorem smaller_eq_min (a b : Rat) : smaller a b = min a b := by
  show (if b < a then b else a) = min a b
  rw [min_comm, min_def_lt]

theorem larger_eq_max (a b : Rat) : larger a b = max a b := by
  show (if a < b then b else a) = max a b
  rw [max_def_lt]

end Coordinate

namespace Box

theorem height_of_lt {b : Box Rat} (h : b.top < b.bottom) : b.height = b.bottom - b.top := by
  show Coordinate.larger 0 (b.bottom - b.top) = b.bottom - b.top
  rw [Coordinate.larger_eq_max, max_eq_right (by linarith)]

end Box
end FormulaMap

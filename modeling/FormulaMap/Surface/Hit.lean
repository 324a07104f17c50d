/-
Which atom a point of the page hits.

A point hits an atom when it lies in the atom's box; operators can be missed by
a little above and below.  Of several the smallest is meant, and of equally
small ones the deepest.
-/
import FormulaMap.Geometry.Tolerances
import FormulaMap.Surface.Node

namespace FormulaMap
namespace SurfaceMap

open Coordinate

variable {α : Type} [Coordinate α]

def operatorRole : String := "operator"

/-- How far above or below an atom a point still hits it. -/
def slack (t : Tolerances α) (n : Node α) : α :=
  if n.role == operatorRole then t.operatorHit else ofNat 0

/-- Whether a point, relative to the container, hits an atom. -/
def hits (t : Tolerances α) (x y : α) (n : Node α) : Bool := n.box.contains x y (slack t n)

/-- Whether a point would be meant for `a` rather than for `b`. -/
def moreSpecific (a b : Node α) : Bool :=
  decide (a.box.area < b.box.area) || (same a.box.area b.box.area && decide (b.depth < a.depth))

/-- The atom that a point of the page is meant for. -/
def hit? (t : Tolerances α) (x y : α) (m : SurfaceMap α) : Option (Node α) :=
  firstLeast moreSpecific
    (m.atoms.filter (hits t (x - m.origin.left) (y - m.origin.top)))

end SurfaceMap
end FormulaMap

/-
The reading order of a surface tree.

Children are read from left to right.  Neighbours whose boxes overlap by more
than a share of the narrower one form a column, and a column is read from top to
bottom, so that a numerator comes before its denominator.
-/
import FormulaMap.Surface.Node

namespace FormulaMap
namespace ReadingOrder

open Coordinate

variable {α β : Type} [Coordinate α]

/-- Whether `next` stands in the column of the box before it. -/
def sameColumn (ratio : α) (previous next : Box α) : Bool :=
  decide (ratio * smaller (next.right - next.left) (previous.right - previous.left) <
    next.horizontalOverlap previous)

/-- Cuts a list where a neighbour does not belong with the one before it. -/
def runs (joined : β → β → Bool) : List β → List (List β)
  | [] => []
  | [x] => [[x]]
  | x :: y :: ys =>
    match runs joined (y :: ys) with
    | [] => [[x]]
    | g :: gs => if joined x y then (x :: g) :: gs else [x] :: g :: gs

/-- Items with boxes, in reading order. -/
def arrange (ratio : α) (items : List (Box α × β)) : List (Box α × β) :=
  let fromLeft := sortBy (fun a b => decide (a.1.left < b.1.left)) items
  (runs (fun a b => sameColumn ratio a.1 b.1) fromLeft).flatMap fun column =>
    sortBy (fun a b => decide (a.1.top < b.1.top)) column

mutual

/-- The leaves of a tree in reading order. -/
def leaves (ratio : α) : Tree (Node α) → List (Node α)
  | .node n [] => [n]
  | .node _ (t :: ts) => (arrange ratio (blocks ratio (t :: ts))).flatMap (·.2)

/-- Every child's box with the leaves below it. -/
def blocks (ratio : α) : List (Tree (Node α)) → List (Box α × List (Node α))
  | [] => []
  | t :: ts => (t.value.box, leaves ratio t) :: blocks ratio ts

end

end ReadingOrder
end FormulaMap

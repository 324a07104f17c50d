/-
The operands of an operator on the surface, and selecting them together with it.

An operand is found by the path that the expression gives it: an atom with that
very path is preferred to one below it.  A side that no path accounts for is
filled by the nearest atom beside the operator.
-/
import FormulaMap.Formula.Path
import FormulaMap.Geometry.Tolerances
import FormulaMap.Surface.Node

namespace FormulaMap

namespace Path

/-- Whether `q` is the path `p` or one below it. -/
def covers (p q : String) : Bool := q == p || (p ++ ".").toList.isPrefixOf q.toList

end Path

structure Operands (α : Type) where
  left : Option (Node α)
  right : Option (Node α)
  deriving DecidableEq, Repr

namespace Operands

open Coordinate

variable {α : Type}

/-- The atom for a path after one more has been seen: the last one with that very
path, or else the first one below it. -/
def matchAtom (path : String) (best : Option (Node α)) (a : Node α) : Option (Node α) :=
  match a.joined? with
  | some q => if Path.covers path q && (q == path || best.isNone) then some a else best
  | none => best

def byPath (atoms : List (Node α)) (path : String) : Option (Node α) :=
  atoms.foldl (matchAtom path) none

variable [Coordinate α]

/-- The atoms beside an operator that may be its operands. -/
def beside (t : Tolerances α) (atoms : List (Node α)) (operator : Node α) : List (Node α) :=
  atoms.filter fun a =>
    a.number != operator.number && a.kind.isOperand &&
      decide (distance a.box.midY operator.box.midY < t.operandCenter)

/-- The candidate that reaches furthest to the right on the left of an operator. -/
def nearestLeft (operator : Node α) (candidates : List (Node α)) : Option (Node α) :=
  firstLeast (fun a b => decide (b.box.right < a.box.right))
    (candidates.filter fun a => decide (a.box.right ≤ operator.box.centerX))

def nearestRight (operator : Node α) (candidates : List (Node α)) : Option (Node α) :=
  firstLeast (fun a b => decide (a.box.left < b.box.left))
    (candidates.filter fun a => decide (operator.box.centerX ≤ a.box.left))

end Operands

namespace SurfaceMap

open Operands

variable {α : Type} [Coordinate α]

/-- The operands of the operator at a path; there is none at the empty path. -/
def operands? (t : Tolerances α) (path : String) (m : SurfaceMap α) : Option (Operands α) :=
  if path.isEmpty then none
  else
    let (leftPath, rightPath) := Path.operands path
    let left := byPath m.atoms leftPath
    let right := byPath m.atoms rightPath
    match (m.atomsAt path).head? with
    | none => some ⟨left, right⟩
    | some operator =>
      let candidates := beside t m.atoms operator
      some ⟨left.or (nearestLeft operator candidates), right.or (nearestRight operator candidates)⟩

end SurfaceMap

/-- An operator together with its operands, as it is highlighted. -/
structure OperatorSelection (α : Type) where
  operator : Node α
  operands : Operands α
  path : String
  symbol : String
  deriving DecidableEq, Repr

namespace OperatorSelection

variable {α : Type}

def isComplete (s : OperatorSelection α) : Bool :=
  s.operands.left.isSome && s.operands.right.isSome

/-- What is highlighted, and as what. -/
def parts (s : OperatorSelection α) : List (String × Node α) :=
  ("operator", s.operator) ::
    (s.operands.left.toList.map fun n => ("left-operand", n)) ++
    (s.operands.right.toList.map fun n => ("right-operand", n))

end OperatorSelection

namespace SurfaceMap

variable {α : Type} [Coordinate α]

/-- Selects a joined operator. -/
def select? (t : Tolerances α) (n : Node α) (m : SurfaceMap α) : Option (OperatorSelection α) :=
  if n.kind.isSelectable then
    n.joined?.bind fun path =>
      (m.operands? t path).map fun operands =>
        ⟨n, operands, path, if n.text.isEmpty then "?" else n.text⟩
  else none

end SurfaceMap
end FormulaMap

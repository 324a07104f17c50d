/-
Refining the atoms of a map.

The atoms are put in spatial order, by left edge and then by top edge, and five
passes go over them: the hit zones of fraction bars are widened, Greek letters
and decimals are told apart from their neighbours in kind, every minus sign is
found to be a sign or an operation by the atom that stands to its left, whole
numbers are joined with the fraction that follows, and operators are numbered.
A pass is a function on lists of nodes, so that it can be run on its own.
-/
import FormulaMap.Geometry.Tolerances
import FormulaMap.Surface.Node

namespace FormulaMap
namespace Enhance

open Coordinate

variable {α : Type} [Coordinate α]

/-! ## Spatial order -/

def corner (n : Node α) : α × α := (n.box.left, n.box.top)

def spatialOrder (ns : List (Node α)) : List (Node α) :=
  sortBy (fun a b => before (corner a) (corner b)) ns

/-! ## Fraction bars -/

def widenBar (margin height : α) (n : Node α) : Node α :=
  if n.kind = .fracBar && !n.marks.widened then
    { n with
      box :=
        { n.box with
          top := clamp (n.box.top - margin) (ofNat 0) height
          bottom := clamp (n.box.bottom + margin) (ofNat 0) height }
      marks := { n.marks with widened := true } }
  else n

/-- Widens the hit zones of bars, up to the borders of a map of this height. -/
def widenBars (margin height : α) (ns : List (Node α)) : List (Node α) :=
  ns.map (widenBar margin height)

/-! ## Kinds -/

def reclassifyNode (n : Node α) : Node α :=
  let cs := n.glyphs
  if Category.isDecimal cs then { n with kind := .decimal }
  else if Category.hasGreek cs then { n with kind := .var }
  else n

def reclassify (ns : List (Node α)) : List (Node α) := ns.map reclassifyNode

/-! ## Minus signs -/

/-- Whether two atoms stand side by side on one line. -/
def sameLine (ratio : α) (n other : Node α) : Bool :=
  decide (ratio * smaller n.box.height other.box.height < n.box.verticalOverlap other.box)

/-- The kind of a minus sign; `seen` are the atoms to its left, nearest first. -/
def minusKind (ratio : α) (seen : List (Node α)) (n : Node α) : Kind :=
  match seen.find? fun other => !n.related other && sameLine ratio n other with
  | none => .minusUnary
  | some other => if other.kind.opensOperand then .minusUnary else .minusBinary

def resolveNode (ratio : α) (seen : List (Node α)) (n : Node α) : Node α :=
  if isMinusGlyph (String.ofList n.glyphs) then { n with kind := minusKind ratio seen n } else n

def resolveAfter (ratio : α) (seen : List (Node α)) : List (Node α) → List (Node α)
  | [] => []
  | n :: ns =>
    let m := resolveNode ratio seen n
    m :: resolveAfter ratio (m :: seen) ns

/-- Tells signs from operations, given the atoms in spatial order. -/
def resolveMinus (ratio : α) (ns : List (Node α)) : List (Node α) := resolveAfter ratio [] ns

/-! ## Mixed numbers -/

/-- Whether a bar starts at most `gap` to the right of a number and beside it. -/
def follows (gap : α) (n bar : Node α) : Bool :=
  decide (n.box.right < bar.box.left) && decide (bar.box.left - n.box.right < gap) &&
    decide (bar.box.top < n.box.midY) && decide (n.box.midY < bar.box.bottom)

/-- Whether a node stands on a bar or hangs below it. -/
def standsOn (bar n : Node α) : Bool :=
  decide (bar.box.left - ofNat 1 ≤ n.box.left) && decide (n.box.right ≤ bar.box.right + ofNat 1) &&
    (decide (n.box.bottom ≤ bar.box.midY) || decide (bar.box.midY ≤ n.box.top))

/-- What becomes of a node when `whole` is joined with `bar`. -/
def joinNode (whole bar n : Node α) : Node α :=
  if n.number = whole.number then
    { n with kind := .mixedNumber, marks := { n.marks with bar := some bar.id } }
  else if n.number = bar.number then { n with marks := { n.marks with partOf := some whole.id } }
  else if n.kind.isNumeric && standsOn bar n then
    { n with marks := { n.marks with partOf := some whole.id } }
  else n

/-- Joins one number, given by where it is in the walk, with the bar it precedes. -/
def joinWhole (gap : α) (bars state : List (Node α)) (number : Nat) : List (Node α) :=
  match state.find? (·.number == number) with
  | none => state
  | some n =>
    if n.kind.isNumeric && !n.isMixedPart then
      match bars.find? (follows gap n) with
      | none => state
      | some bar => state.map (joinNode n bar)
    else state

/-- Joins whole numbers with fractions, given the atoms in spatial order. -/
def joinMixed (gap : α) (ns : List (Node α)) : List (Node α) :=
  (ns.map (·.number)).foldl (joinWhole gap (ns.filter (·.kind = .fracBar))) ns

/-! ## Operator slots -/

/-- The slot of an operator that is already numbered and shares this one's. -/
def sharedSlot? (numbered : List (Node α)) (n : Node α) : Option Nat :=
  (numbered.find? fun other => other.kind = n.kind && n.related other).bind (·.slot)

def numberAfter (numbered : List (Node α)) (next : Nat) : List (Node α) → List (Node α)
  | [] => []
  | n :: ns =>
    if n.kind.hasSlot then
      match sharedSlot? numbered n with
      | some s =>
        let m := { n with slot := some s }
        m :: numberAfter (numbered ++ [m]) next ns
      | none =>
        let m := { n with slot := some next }
        m :: numberAfter (numbered ++ [m]) (next + 1) ns
    else n :: numberAfter numbered next ns

/-- Numbers the operators, given the atoms in spatial order.  An operator and a
node of its kind that encloses it are one operator. -/
def numberOperators (ns : List (Node α)) : List (Node α) := numberAfter [] 0 ns

end Enhance

namespace SurfaceMap

open Enhance

variable {α : Type} [Coordinate α]

/-- The passes over the atoms. -/
inductive Pass where
  | widen
  | reclassify
  | minus
  | mixed
  | slots
  deriving DecidableEq, Repr

def Pass.run (t : Tolerances α) (height : α) : Pass → List (Node α) → List (Node α)
  | widen => widenBars t.barExpansion height
  | reclassify => Enhance.reclassify
  | minus => resolveMinus t.minusOverlap
  | mixed => joinMixed t.mixedGap
  | slots => numberOperators

def height (m : SurfaceMap α) : α := m.root.value.box.height

def atomsInOrder (m : SurfaceMap α) : List (Node α) := spatialOrder m.atoms

/-- Runs one pass over the atoms in their present order. -/
def runPass (t : Tolerances α) (p : Pass) (m : SurfaceMap α) : SurfaceMap α :=
  m.restore (p.run t m.height m.atomsInOrder)

/-- All passes.  The order is taken after the bars have been widened. -/
def enhance (t : Tolerances α) (m : SurfaceMap α) : SurfaceMap α :=
  let m := m.runPass t .widen
  let refined :=
    [Pass.reclassify, .minus, .mixed, .slots].foldl (fun ns p => p.run t m.height ns) m.atomsInOrder
  m.restore refined

end SurfaceMap
end FormulaMap

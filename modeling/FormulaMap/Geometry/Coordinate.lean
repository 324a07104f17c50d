/-
Coordinates: what the geometry asks of a number.

A layout is measured in floats and reasoned about in rationals.  `Coordinate`
collects the operations that both have, with an order that can be tested; no law
is asked for, so every definition over a `Coordinate` runs on floats and keeps
its rounding, and every law is a statement about the rationals.
-/

namespace FormulaMap

class Coordinate (α : Type) extends Add α, Sub α, Mul α, Div α, LT α, LE α where
  ofNat : Nat → α
  [decLt : DecidableLT α]
  [decLe : DecidableLE α]

attribute [reducible, instance] Coordinate.decLt Coordinate.decLe

instance : Coordinate Float where
  ofNat := Float.ofNat

instance : Coordinate Rat where
  ofNat n := n

namespace Coordinate

variable {α : Type} [Coordinate α]

/-- The larger of two; the first when neither is larger. -/
def larger (a b : α) : α := if a < b then b else a

/-- The smaller of two; the first when neither is smaller. -/
def smaller (a b : α) : α := if b < a then b else a

def clamp (x lo hi : α) : α := larger lo (smaller hi x)

def distance (a b : α) : α :=
  let d := a - b
  if d < ofNat 0 then ofNat 0 - d else d

/-- Neither of two is larger, and both are numbers. -/
def same (a b : α) : Bool := decide (a ≤ b) && decide (b ≤ a)

/-- Comparison of pairs by the first coordinate, then by the second. -/
def before (a b : α × α) : Bool := decide (a.1 < b.1) || (same a.1 b.1 && decide (a.2 < b.2))

end Coordinate
end FormulaMap

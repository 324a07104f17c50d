/-
Joining a surface map to an expression.

The leaves of the map in reading order and the descriptors of the expression are
paired by position: numerals with numerals, mixed numbers with mixed numbers,
and operators with the operators of the same bucket, that is the same symbol and,
for a minus, the same use.  What is left over on either side stays unjoined.  A
path also goes to the nodes of the same sort that enclose a joined leaf.
-/
import FormulaMap.Formula.Descriptor
import FormulaMap.Geometry.Tolerances
import FormulaMap.Surface.ReadingOrder

namespace FormulaMap

/-- How many pairs of each sort were joined. -/
structure JoinSummary where
  numerals : Nat
  operators : Nat
  mixedNumbers : Nat
  deriving DecidableEq, Repr

namespace Join

variable {α : Type}

/-! ## Enclosing nodes -/

/-- The numbers of the nodes above `n`, as long as they pass a test. -/
def enclosing (test : Node α → Bool) (m : SurfaceMap α) (n : Node α) : List Nat :=
  n.above.takeWhile fun k => ((m.nodeAt? k).map test).getD false

def updateAll (numbers : List Nat) (f : Node α → Node α) (m : SurfaceMap α) : SurfaceMap α :=
  m.mapNodes fun n => if numbers.contains n.number then f n else n

/-- A path and a value for a node that has none. -/
def fillNumber (path : String) (value : Option String) (n : Node α) : Node α :=
  { n with
    path := if n.isJoined then n.path else some path
    value := if n.value.isNone then value else n.value }

/-- Gives a path and a value to the numerals that enclose a node. -/
def fillNumbersAbove (path : String) (value : Option String) (n : Node α) (m : SurfaceMap α) :
    SurfaceMap α :=
  updateAll (enclosing (·.kind.isNumeric) m n) (fillNumber path value) m

/-! ## Numerals -/

def isNumeralLeaf (n : Node α) : Bool := n.kind.isNumeric && !n.isMixedPart

def joinNumeral (d : NumeralDescriptor) (leaf : Node α) (m : SurfaceMap α) : SurfaceMap α :=
  fillNumbersAbove d.path (some d.text) leaf <|
    m.update leaf.number fun n => { n with path := some d.path, value := some d.text }

def numerals (leaves : List (Node α)) (ds : List NumeralDescriptor) (m : SurfaceMap α) :
    SurfaceMap α × Nat :=
  let pairs := ds.zip (leaves.filter isNumeralLeaf)
  (pairs.foldl (fun m (d, leaf) => joinNumeral d leaf m) m, pairs.length)

/-! ## Operators -/

/-- The bucket of a minus that is a sign.  Every other bucket is a canonical symbol. -/
def signBucket : String := "-u"

def bucketOfDescriptor (d : OperatorDescriptor) : String :=
  let s := normalizeOperator d.symbol
  if s == "-" && d.arity == 1 then signBucket else s

def bucketOfNode (n : Node α) : String :=
  if n.kind = .minusUnary then signBucket else normalizeOperator n.text

/-- The operators of one bucket, each with the number of those before it that
have the same path. -/
def ranked (ds : List OperatorDescriptor) : List (OperatorDescriptor × Nat) :=
  ds.zipIdx.map fun (d, i) => (d, (ds.take i).countP fun e => e.path == d.path)

def fillOperator (d : OperatorDescriptor) (rank : Nat) (n : Node α) : Node α :=
  { n with path := some d.path, operator := some d.symbol, operatorRank := some rank }

def joinOperator (d : OperatorDescriptor) (rank : Nat) (leaf : Node α) (m : SurfaceMap α) :
    SurfaceMap α :=
  let joined := m.update leaf.number (fillOperator d rank)
  updateAll (enclosing (·.kind = leaf.kind) m leaf)
    (fun n => if n.isJoined then n else fillOperator d rank n) joined

/-- The pairs of one bucket. -/
def bucketPairs (leaves : List (Node α)) (ds : List OperatorDescriptor) (b : String) :
    List ((OperatorDescriptor × Nat) × Node α) :=
  (ranked (ds.filter (bucketOfDescriptor · = b))).zip
    ((leaves.filter (·.kind.isOperator)).filter (bucketOfNode · = b))

/-- The pairs of all buckets, in the order in which the expression uses them. -/
def operatorPairs (leaves : List (Node α)) (ds : List OperatorDescriptor) :
    List ((OperatorDescriptor × Nat) × Node α) :=
  ((ds.map bucketOfDescriptor).eraseDups).flatMap (bucketPairs leaves ds)

def operators (leaves : List (Node α)) (ds : List OperatorDescriptor) (m : SurfaceMap α) :
    SurfaceMap α × Nat :=
  let pairs := operatorPairs leaves ds
  (pairs.foldl (fun m ((d, rank), leaf) => joinOperator d rank leaf m) m, pairs.length)

/-! ## Mixed numbers -/

/-- Gives the path to a part of a mixed number that has none. -/
def joinPart (path : String) (part : Node α) (m : SurfaceMap α) : SurfaceMap α :=
  match m.nodeAt? part.number with
  | some n =>
    if n.isJoined then m
    else fillNumbersAbove path none n (m.update n.number fun n => { n with path := some path })
  | none => m

def joinMixed (atoms : List (Node α)) (d : MixedDescriptor) (leaf : Node α) (m : SurfaceMap α) :
    SurfaceMap α :=
  let joined := m.update leaf.number fun n =>
    { n with
      path := some d.path
      value := some d.whole
      marks := { n.marks with mixed := some ⟨d.whole, d.numerator, d.denominator⟩ } }
  let parts := atoms.filter fun a => a.mixedOwner? == some leaf.id
  fillNumbersAbove d.path none leaf (parts.foldl (fun m p => joinPart d.path p m) joined)

def mixedNumbers (leaves : List (Node α)) (ds : List MixedDescriptor) (m : SurfaceMap α) :
    SurfaceMap α × Nat :=
  let pairs := ds.zip (leaves.filter (·.kind = .mixedNumber))
  (pairs.foldl (fun m' (d, leaf) => joinMixed m.atoms d leaf m') m, pairs.length)

end Join

namespace SurfaceMap

variable {α : Type} [Coordinate α]

/-- The leaves in reading order. -/
def leaves (t : Tolerances α) (m : SurfaceMap α) : List (Node α) :=
  ReadingOrder.leaves t.columnOverlap m.root

/-- Joins the map to an expression. -/
def join (t : Tolerances α) (e : Expr) (m : SurfaceMap α) : SurfaceMap α × JoinSummary :=
  let leaves := m.leaves t
  let (m, numerals) := Join.numerals leaves e.numerals m
  let (m, operators) := Join.operators leaves e.operators m
  let (m, mixed) := Join.mixedNumbers leaves e.mixedNumbers m
  (m, ⟨numerals, operators, mixed⟩)

/-- There is nothing to join when there is no expression. -/
def joinOption (t : Tolerances α) (e : Option Expr) (m : SurfaceMap α) :
    SurfaceMap α × JoinSummary :=
  match e with
  | some e => m.join t e
  | none => (m, ⟨0, 0, 0⟩)

end SurfaceMap
end FormulaMap

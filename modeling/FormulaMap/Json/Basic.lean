/-
JSON values.

The fields of an object keep the order in which they were first written, and
each key occurs once.  Integers and floats are kept apart, since an integer is
exact at any size and is written without a point.
-/
import FormulaMap.Fields

namespace FormulaMap

inductive Json where
  | null
  | bool (b : Bool)
  | int (i : Int)
  | float (x : Float)
  | str (s : String)
  | arr (items : List Json)
  | obj (fields : List (String × Json))
  deriving Inhabited, BEq

namespace Json

/-- The value under a key, with `null` for a missing key and for other values. -/
def field (k : String) : Json → Json
  | obj fs => (Fields.get? k fs).getD null
  | _ => null

def ofOption {α : Type} (f : α → Json) : Option α → Json
  | some a => f a
  | none => null

def ofString? (s : Option String) : Json := ofOption str s

def ofNat (n : Nat) : Json := int n

/-- Empty, zero, false and null values count as absent. -/
def isTruthy : Json → Bool
  | null => false
  | bool b => b
  | int i => i != 0
  | float x => x != 0.0
  | str s => s != ""
  | arr xs => !xs.isEmpty
  | obj fs => !fs.isEmpty

mutual

/-- The same value with the fields of every object in increasing order of keys. -/
def sorted : Json → Json
  | arr xs => arr (sortedItems xs)
  | obj fs => obj ((sortedFields fs).mergeSort fun a b => decide (a.1 ≤ b.1))
  | v => v

def sortedItems : List Json → List Json
  | [] => []
  | x :: xs => sorted x :: sortedItems xs

def sortedFields : List (String × Json) → List (String × Json)
  | [] => []
  | (k, v) :: fs => (k, sorted v) :: sortedFields fs

end

mutual

/-- The same value without the fields of one name, at any depth. -/
def without (key : String) : Json → Json
  | arr xs => arr (itemsWithout key xs)
  | obj fs => obj (fieldsWithout key fs)
  | v => v

def itemsWithout (key : String) : List Json → List Json
  | [] => []
  | x :: xs => without key x :: itemsWithout key xs

def fieldsWithout (key : String) : List (String × Json) → List (String × Json)
  | [] => []
  | (k, v) :: fs =>
    if k == key then fieldsWithout key fs else (k, without key v) :: fieldsWithout key fs

end

mutual

/-- The integers in a value. -/
def integers : Json → List Int
  | int i => [i]
  | arr xs => itemIntegers xs
  | obj fs => fieldIntegers fs
  | _ => []

def itemIntegers : List Json → List Int
  | [] => []
  | x :: xs => integers x ++ itemIntegers xs

def fieldIntegers : List (String × Json) → List Int
  | [] => []
  | (_, v) :: fs => integers v ++ fieldIntegers fs

end

mutual

/-- How many values are nested in one another. -/
def depth : Json → Nat
  | arr xs => itemDepth xs + 1
  | obj fs => fieldDepth fs + 1
  | _ => 0

def itemDepth : List Json → Nat
  | [] => 0
  | x :: xs => max (depth x) (itemDepth xs)

def fieldDepth : List (String × Json) → Nat
  | [] => 0
  | (_, v) :: fs => max (depth v) (fieldDepth fs)

end

end Json
end FormulaMap

/-
Fields of records.

Each reader takes one JSON value.  A number may be given as a text or as a truth
value, and a truth value as a number or a word; a text is never made from
anything else.
-/
import FormulaMap.Json.Basic
import FormulaMap.Number.FloatText
import FormulaMap.Number.IntText
import FormulaMap.Record.Problem

namespace FormulaMap
namespace Field

/-! ## Scalars -/

def string : Json → Checked String
  | .str s => .ok s
  | _ => .fail .stringExpected

def nonEmptyString (v : Json) : Checked String :=
  (string v).ensure fun s => if s.isEmpty then some .stringTooShort else none

/-- A value that may be null. -/
def optional {α : Type} (read : Json → Checked α) : Json → Checked (Option α)
  | .null => .ok none
  | v => (read v).map some

def float : Json → Checked Float
  | .float x => .ok x
  | .bool b => .ok (if b then 1 else 0)
  | .int i =>
    let x := Binary64.nearestInt i
    if Binary64.isFinite x then .ok x else .fail .floatExpected
  | .str s =>
    match FloatText.readField? s with
    | some x => .ok x
    | none => .fail .floatUnreadable
  | _ => .fail .floatExpected

def nonNegativeFloat (v : Json) : Checked Float :=
  (float v).ensure fun x => if 0 ≤ x then none else some .belowMinimum

def int : Json → Checked Int
  | .int i => .ok i
  | .bool b => .ok (if b then 1 else 0)
  | .float x =>
    match Binary64.ofFloat x with
    | .finite .. =>
      match IntText.ofFloat? x with
      | some i => .ok i
      | none => .fail .intFromFloat
    | _ => .fail .notFinite
  | .str s =>
    if IntText.isTooLong s then .fail .intTooLong
    else
      match IntText.read? s with
      | some i => .ok i
      | none => .fail .intUnreadable
  | _ => .fail .intExpected

def nonNegativeInt (v : Json) : Checked Int :=
  (int v).ensure fun i => if i < 0 then some .belowMinimum else none

def truthWords : List String := ["1", "t", "y", "on", "yes", "true"]

def falsehoodWords : List String := ["0", "f", "n", "no", "off", "false"]

def boolOfInt (i : Int) : Checked Bool :=
  if i = 0 then .ok false else if i = 1 then .ok true else .fail .boolUnreadable

def bool : Json → Checked Bool
  | .bool b => .ok b
  | .int i => if IntText.isWord i then boolOfInt i else .fail .boolExpected
  | .float x =>
    match IntText.ofFloat? x with
    | some i => boolOfInt i
    | none => .fail .boolExpected
  | .str s =>
    let w := String.ofList (FloatText.lower s.toList)
    if truthWords.contains w then .ok true
    else if falsehoodWords.contains w then .ok false
    else .fail .boolUnreadable
  | _ => .fail .boolExpected

/-- One of a fixed set of texts. -/
def oneOf (texts : List String) : Json → Checked String
  | .str s => if texts.contains s then .ok s else .fail .literalMismatch
  | _ => .fail .literalMismatch

/-! ## Lists and objects -/

def list {α : Type} (read : Json → Checked α) : Json → Checked (List α)
  | .arr xs => .all (xs.zipIdx.map fun (x, i) => (read x).under (Nat.repr i))
  | _ => .fail .listExpected

/-- An object whose values are texts. -/
def texts : Json → Checked (List (String × String))
  | .obj fs => .all (fs.map fun (k, v) => Checked.under k ((string v).map fun s => (k, s)))
  | _ => .fail .objectExpected

/-- The fields of a record. -/
def record : Json → Checked (Fields Json)
  | .obj fs => .ok fs
  | _ => .fail .recordExpected

/-- A field that must be there. -/
def required {α : Type} (fs : Fields Json) (key : String) (read : Json → Checked α) : Checked α :=
  match Fields.get? key fs with
  | some v => (read v).under key
  | none => (Checked.fail .missing).under key

/-- A field with a value that holds when it is left out. -/
def withDefault {α : Type} (fs : Fields Json) (key : String) (default : α) (read : Json → Checked α) :
    Checked α :=
  match Fields.get? key fs with
  | some v => (read v).under key
  | none => .ok default

/-- The name under which a field was given: its outer name comes first. -/
def givenName (fs : Fields Json) (outer inner : String) : String :=
  if (Fields.get? outer fs).isSome then outer
  else if (Fields.get? inner fs).isSome then inner
  else outer

/-- No fields but these. -/
def noOthers (fs : Fields Json) (keys : List String) : Checked Unit :=
  match (fs.filter fun f => !keys.contains f.1).map fun f => (⟨[f.1], .extraField⟩ : Problem) with
  | [] => .ok ()
  | ps => .error ps

end Field
end FormulaMap

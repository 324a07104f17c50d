/-
Events of a trace.

An event has a kind and a message, and may have data, references and the number
of the rebuild it belongs to.  A stamp tells events apart and says when each of
them happened.
-/
import FormulaMap.Json.Basic
import FormulaMap.Number.Expansion
import FormulaMap.Text.Quoted

namespace FormulaMap

inductive EventKind where
  | request
  | instrument
  | render
  | build
  | enhance
  | correlate
  | install
  | discard
  | error
  | note
  deriving DecidableEq, Repr

namespace EventKind

def all : List EventKind :=
  [request, instrument, render, build, enhance, correlate, install, discard, error, note]

def name : EventKind → String
  | request => "request"
  | instrument => "instrument"
  | render => "render"
  | build => "build"
  | enhance => "enhance"
  | correlate => "correlate"
  | install => "install"
  | discard => "discard"
  | error => "error"
  | note => "note"

def ofName? (s : String) : Option EventKind := all.find? fun k => k.name == s

/-- What is said of a text that names no kind. -/
def unknown (s : String) : String := Text.quoted s ++ " is not a valid RebuildEventKind"

theorem ofName?_name (k : EventKind) : ofName? k.name = some k := by
  cases k <;> decide

end EventKind

/-! ## Stamps -/

structure Stamp where
  id : String
  time : String
  deriving DecidableEq, Repr

namespace Stamp

/-- Year, month and day of a day counted from 1 January 1970.  Years are counted
from March on, so that the leap day is the last day of a year. -/
def civil (day : Nat) : Nat × Nat × Nat :=
  let z := day + 719468
  let era := z / 146097
  let dayOfEra := z % 146097
  let year := (dayOfEra - dayOfEra / 1460 + dayOfEra / 36524 - dayOfEra / 146096) / 365
  let dayOfYear := dayOfEra - (365 * year + year / 4 - year / 100)
  let month := (5 * dayOfYear + 2) / 153
  let dayOfMonth := dayOfYear - (153 * month + 2) / 5 + 1
  if month < 10 then (year + 400 * era, month + 3, dayOfMonth)
  else (year + 400 * era + 1, month - 9, dayOfMonth)

def twoDigits (n : Nat) : String := String.ofList (Expansion.padded 2 n)

def dateText (date : Nat × Nat × Nat) : String :=
  String.ofList (Expansion.padded 4 date.1) ++ "-" ++ twoDigits date.2.1 ++ "-" ++
    twoDigits date.2.2

def clockText (second : Nat) : String :=
  twoDigits (second / 3600) ++ ":" ++ twoDigits (second / 60 % 60) ++ ":" ++
    twoDigits (second % 60)

/-- Microseconds behind a point, if there are any. -/
def fractionText (micros : Nat) : String :=
  if micros = 0 then "" else "." ++ String.ofList (Expansion.padded 6 micros)

/-- A time in microseconds since 1970 as a date and a time of day in UTC. -/
def timeText (micros : Nat) : String :=
  dateText (civil (micros / 1000000 / 86400)) ++ "T" ++
    clockText (micros / 1000000 % 86400) ++ fractionText (micros % 1000000) ++ "Z"

/-- The stamp for a random number and a time in microseconds.  The identifier has
32 hexadecimal digits, of which one says that it is random and one which variant
of identifiers it belongs to. -/
def ofNumbers (random micros : Nat) : Stamp where
  id := String.ofList (Text.hex 12 (random / Nat.pow 2 74) ++ '4' :: Text.hex 3 (random / Nat.pow 2 62) ++
    Nat.digitChar (8 + random / Nat.pow 2 60 % 4) :: Text.hex 15 random)
  time := timeText micros

end Stamp

/-! ## Events -/

structure Event where
  kind : EventKind
  message : String
  data : Option Json
  refs : Option (List String)
  generation : Option Int

namespace Event

/-- An event of a kind given by name. -/
def ofKindName (kind message : String) (data : Option Json) (refs : Option (List String))
    (generation : Option Int) : Except String Event :=
  match EventKind.ofName? kind with
  | some k => .ok ⟨k, message, data, refs, generation⟩
  | none => .error (EventKind.unknown kind)

def contentFields (e : Event) : Fields Json :=
  [("kind", .str e.kind.name), ("message", .str e.message), ("data", .ofOption id e.data),
   ("refs", .ofOption (fun rs => .arr (rs.map .str)) e.refs)] ++
    (e.generation.map fun g => ("generation", Json.int g)).toList

/-- The fields of an event in order, its stamp first. -/
def fields (e : Event) (s : Stamp) : Fields Json :=
  ("event_id", .str s.id) :: ("ts", .str s.time) :: e.contentFields

def toJson (e : Event) (s : Stamp) : Json := .obj (e.fields s)

end Event
end FormulaMap

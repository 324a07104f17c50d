/-
Problems of external data.

Data from outside is checked field by field, and every problem is kept with the
place where it was found.  A `Checked` value is either decoded data or all its
problems, in the order of the fields.
-/

namespace FormulaMap

inductive ProblemCause where
  | missing
  | extraField
  | stringExpected
  | stringTooShort
  | listExpected
  | objectExpected
  | recordExpected
  | taggedRecordExpected
  | tagMissing
  | tagUnknown
  | literalMismatch
  | listTooShort
  | listTooLong
  | floatExpected
  | floatUnreadable
  | intExpected
  | intUnreadable
  | intTooLong
  | intFromFloat
  | notFinite
  | boolExpected
  | boolUnreadable
  | belowMinimum
  | frozen
  /-- A rule over several fields, or over the meaning of one, is broken. -/
  | rule (text : String)
  deriving DecidableEq, Repr

structure Problem where
  /-- Keys and indices from the outside in. -/
  place : List String
  cause : ProblemCause
  deriving DecidableEq, Repr

abbrev Checked (α : Type) := Except (List Problem) α

namespace Checked

variable {α β γ : Type}

def fail (c : ProblemCause) : Checked α := .error [⟨[], c⟩]

/-- Places the problems below a key. -/
def under (key : String) : Checked α → Checked α
  | .ok a => .ok a
  | .error ps => .error (ps.map fun p => { p with place := key :: p.place })

/-- Both values, or the problems of both. -/
def both : Checked α → Checked β → Checked (α × β)
  | .ok a, .ok b => .ok (a, b)
  | .error ps, .ok _ => .error ps
  | .ok _, .error qs => .error qs
  | .error ps, .error qs => .error (ps ++ qs)

def map2 (f : α → β → γ) (a : Checked α) (b : Checked β) : Checked γ :=
  (both a b).map fun (x, y) => f x y

/-- The first value, provided that the second is fine as well. -/
def alsoOk (a : Checked α) (b : Checked Unit) : Checked α := map2 (fun x _ => x) a b

/-- A rule that is only asked when the value itself is fine. -/
def ensure (rule : α → Option ProblemCause) : Checked α → Checked α
  | .ok a =>
    match rule a with
    | none => .ok a
    | some c => fail c
  | .error ps => .error ps

def all : List (Checked α) → Checked (List α)
  | [] => .ok []
  | c :: cs => map2 (fun a as => a :: as) c (all cs)

end Checked

/-! ## Messages -/

namespace ProblemCause

def name : ProblemCause → String
  | missing => "missing"
  | extraField => "extra_forbidden"
  | stringExpected => "string_type"
  | stringTooShort => "string_too_short"
  | listExpected => "list_type"
  | objectExpected => "dict_type"
  | recordExpected => "model_type"
  | taggedRecordExpected => "model_attributes_type"
  | tagMissing => "union_tag_not_found"
  | tagUnknown => "union_tag_invalid"
  | literalMismatch => "literal_error"
  | listTooShort => "too_short"
  | listTooLong => "too_long"
  | floatExpected => "float_type"
  | floatUnreadable => "float_parsing"
  | intExpected => "int_type"
  | intUnreadable => "int_parsing"
  | intTooLong => "int_parsing_size"
  | intFromFloat => "int_from_float"
  | notFinite => "finite_number"
  | boolExpected => "bool_type"
  | boolUnreadable => "bool_parsing"
  | belowMinimum => "greater_than_equal"
  | frozen => "frozen_instance"
  | rule text => "value_error (" ++ text ++ ")"

end ProblemCause

namespace Problem

def message (p : Problem) : String :=
  ".".intercalate p.place ++ ": " ++ p.cause.name

/-- All problems on one line. -/
def report (ps : List Problem) : String := "; ".intercalate (ps.map message)

/-- How many problems a record has. -/
def summary (record : String) (ps : List Problem) : String :=
  Nat.repr ps.length ++ (if ps.length = 1 then " validation error for " else " validation errors for ") ++
    record

end Problem
end FormulaMap

/-
Trace logs: one JSON value on each line of a file.

Writing stops at the first failure.  The best-effort log reports a failure once and is
disabled from then on.  It is there so that what is traced does not depend on its trace;
but it catches the kinds of failures that it names, and lets all others through.
-/
import FormulaMap.Disk.Stream
import FormulaMap.Json.Reader
import FormulaMap.Json.Writer

namespace FormulaMap

/-! ## Failures -/

/-- Why a record has no line. -/
inductive WriterFault where
  | noForm (type : String)
  | longInteger
  | tooDeep
  deriving DecidableEq, Repr

namespace WriterFault

def message : WriterFault → String
  | noForm type => "Object of type " ++ type ++ " is not JSON serializable"
  | longInteger => Numeral.tooLong
  | tooDeep => "maximum recursion depth exceeded while encoding a JSON object"

instance : Coe WriterFault String := ⟨message⟩

end WriterFault

/-- Why a record was not written. -/
inductive TraceFault where
  | unwritable (f : WriterFault)
  | disk (e : DiskError)
  deriving DecidableEq, Repr

/-- The kinds of failures that can be caught apart. -/
inductive FaultKind where
  | system
  | type
  | value
  | recursion
  deriving DecidableEq, Repr

namespace TraceFault

def message : TraceFault → String
  | unwritable f => f.message
  | disk e => e.message

def kind : TraceFault → FaultKind
  | unwritable (.noForm _) => .type
  | unwritable .longInteger => .value
  | unwritable .tooDeep => .recursion
  | disk _ => .system

end TraceFault

/-! ## Records -/

/-- What is appended to a log. -/
inductive TraceRecord where
  | json (v : Json)
  /-- A value of a type that JSON has no form for. -/
  | unwritable (type : String)
  /-- A value that is nested deeper than the writer can go down. -/
  | tooDeep

namespace TraceRecord

/-- The record of a value, for a writer that can go down `limit` levels. -/
def ofJson (limit : Nat) (v : Json) : TraceRecord := if v.depth ≤ limit then json v else tooDeep

def line : TraceRecord → Except WriterFault String
  | json v =>
    if v.integers.all fun i => (Numeral.integerText? i).isSome then
      .ok (v.write Json.tight ++ "\n")
    else .error .longInteger
  | unwritable type => .error (.noForm type)
  | tooDeep => .error .tooDeep

end TraceRecord

namespace Trace

/-! ## Reading -/

/-- The values on the lines of a text; blank lines are skipped. -/
def parse (text : String) : Except Json.Fault (List Json) :=
  ((Text.lines text).filter fun l => !Text.allBlank l).mapM Json.read

/-! ## Writing -/

def append (r : TraceRecord) (s : Stream) : Stream × Option TraceFault :=
  match r.line with
  | .error f => (s, some (.unwritable f))
  | .ok l =>
    let (s, ok) := s.write l
    (s, if ok then none else some (.disk Stream.outOfSpace))

/-- Appends records up to the first failure. -/
def extend : List TraceRecord → Stream → Stream × Option TraceFault
  | [], s => (s, none)
  | r :: rs, s =>
    match append r s with
    | (s, none) => extend rs s
    | (s, some f) => (s, some f)

def close (s : Stream) (d : Disk) : Disk × Option TraceFault :=
  let (d, ok) := s.close d
  (d, if ok then none else some (.disk Stream.outOfSpace))

/-- Opens a log, appends records, flushes and closes it. -/
def writeAll (l : Location) (rs : List TraceRecord) (d : Disk) : Disk × Option TraceFault :=
  match Stream.openAt l d with
  | .error e => (d, some (.disk e))
  | .ok (d, s) =>
    match extend rs s with
    | (s, some f) => ((s.close d).1, some f)
    | (s, none) => close s d

end Trace

/-- A log that reports failures and goes on without writing. -/
structure BestEffortLog where
  /-- The stream, until it is closed or if it could not be opened. -/
  stream : Option Stream
  written : Nat
  disabledReason : Option String
  warnings : List String
  deriving DecidableEq, Repr

namespace BestEffortLog

def warningOf (reason : String) : String := "WARNING: " ++ reason

def disable (reason : String) (b : BestEffortLog) : BestEffortLog :=
  { b with disabledReason := some reason, warnings := b.warnings ++ [warningOf reason] }

def openAt (l : Location) (d : Disk) : BestEffortLog × Disk :=
  match Stream.openAt l d with
  | .ok (d, s) => (⟨some s, 0, none, []⟩, d)
  | .error e => (disable ("rebuild trace logging disabled: " ++ e.message) ⟨none, 0, none, []⟩, d)

def isEnabled (b : BestEffortLog) : Bool := b.stream.isSome && b.disabledReason.isNone

/-- The failures of appending that the log catches. -/
def caughtInAppend : List FaultKind := [.system, .type, .value]

/-- The failures of closing that it catches. -/
def caughtInClose : List FaultKind := [.system]

/-- Appends a record; the failure is the one that leaves the call. -/
def tryAppend (r : TraceRecord) (b : BestEffortLog) : BestEffortLog × Option TraceFault :=
  if b.isEnabled then
    match b.stream with
    | none => (b, none)
    | some s =>
      match Trace.append r s with
      | (s, none) => ({ b with stream := some s, written := b.written + 1 }, none)
      | (s, some f) =>
        let b := { b with stream := some s }
        if caughtInAppend.contains f.kind then
          (disable ("rebuild trace logging failed: " ++ f.message) b, none)
        else (b, some f)
  else (b, none)

def append (r : TraceRecord) (b : BestEffortLog) : BestEffortLog := (b.tryAppend r).1

/-- Closes the log; a second time nothing happens. -/
def tryClose (b : BestEffortLog) (d : Disk) : (BestEffortLog × Disk) × Option TraceFault :=
  match b.stream with
  | none => ((b, d), none)
  | some s =>
    match Trace.close s d with
    | (d, none) => (({ b with stream := none }, d), none)
    | (d, some f) =>
      if caughtInClose.contains f.kind then
        let warning := warningOf ("rebuild trace close failed: " ++ f.message)
        (({ b with stream := none, warnings := b.warnings ++ [warning] }, d), none)
      else ((b, d), some f)

def close (b : BestEffortLog) (d : Disk) : BestEffortLog × Disk := (b.tryClose d).1

end BestEffortLog
end FormulaMap

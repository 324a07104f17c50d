/-
The command that builds a surface map from a rendered layout.

It requests a rebuild of a formula, reads the layout from a file, installs the
map, and reports what was joined.  On demand it hits a point, finds operands,
writes the map to a file, and traces the rebuild.  A trace that cannot be written
is only remarked upon.
-/
import FormulaMap.Command.Arguments
import FormulaMap.Json.Reader
import FormulaMap.Json.Writer
import FormulaMap.Layout.Page
import FormulaMap.Number.FloatText
import FormulaMap.Surface.Attributes
import FormulaMap.Surface.Data
import FormulaMap.Trace.Log
import FormulaMap.Trace.Rebuild

namespace FormulaMap
namespace SurfaceCommand

structure Options where
  layout : String
  formula : String
  point : Option (Float × Float)
  operandsAt : Option String
  mapFile : Option String
  traceFile : Option String

def formulaOption : OptionSpec := ⟨"--latex", 1⟩
def pointOption : OptionSpec := ⟨"--hit", 2⟩
def operandsOption : OptionSpec := ⟨"--operands", 1⟩
def mapOption : OptionSpec := ⟨"--out", 1⟩
def traceOption : OptionSpec := ⟨"--trace-out", 1⟩

def optionSpecs : List OptionSpec :=
  [formulaOption, pointOption, operandsOption, mapOption, traceOption]

def pointOf : List String → Option (Float × Float)
  | [x, y] => do return (← FloatText.readArgument? x, ← FloatText.readArgument? y)
  | _ => none

/-- The point of the last `--hit`; every one that is given must be readable. -/
def givenPoint (a : Arguments) : Except UsageError (Option (Float × Float)) :=
  let given := (a.options.filter fun o => o.1 == pointOption.name).map fun o => pointOf o.2
  if given.all Option.isSome then .ok (given.getLast?.join)
  else .error (.badValues pointOption.name)

/-- An empty value counts as none. -/
def nonEmpty (s : Option String) : Option String := s.filter fun t => !t.isEmpty

def Options.ofArguments (args : List String) : Except UsageError Options := do
  let a ← Arguments.parse optionSpecs args
  let point ← givenPoint a
  let layout ← a.onlyWord
  match a.value? formulaOption.name with
  | none => .error (.missing formulaOption.name)
  | some formula =>
    return ⟨layout, formula, point, nonEmpty (a.value? operandsOption.name),
      nonEmpty (a.value? mapOption.name), nonEmpty (a.value? traceOption.name)⟩

/-! ## Running -/

/-- What the command has done so far. -/
structure State where
  lines : List String
  disk : Disk
  trace : Option BestEffortLog
  /-- How many entries of the session's log have been traced. -/
  traced : Nat

/-- A run that may end early for a reason; what has been done stays done. -/
abbrev Run := ExceptT String (StateM State)

def say (line : String) : Run Unit := modify fun s => { s with lines := s.lines ++ [line] }

def warn (what : String) : Run Unit := say ("WARNING: " ++ what)

/-- Takes over what the log has to remark since `before`. -/
def takeOver (before : Nat) (b : BestEffortLog) (s : State) : State :=
  { s with trace := some b, lines := s.lines ++ b.warnings.drop before }

def openTrace (o : Options) : Run Unit :=
  modify fun s =>
    match o.traceFile with
    | none => s
    | some file =>
      let (b, disk) := BestEffortLog.openAt (Location.ofString file) s.disk
      takeOver 0 b { s with disk := disk }

/-- Traces the entries of a session's log that are new. -/
def traceNew (stamps : Nat → Stamp) (log : List LogEntry) : Run Unit :=
  modify fun s =>
    let fresh := (log.drop s.traced).zipIdx.map fun (e, i) =>
      TraceRecord.json (e.event.toJson (stamps (s.traced + i)))
    let s := { s with traced := log.length }
    match s.trace with
    | none => s
    | some b => takeOver b.warnings.length (fresh.foldl (fun b r => b.append r) b) s

/-- Closes the trace, whatever happened before. -/
def closeTrace (s : State) : State :=
  match s.trace with
  | none => s
  | some b =>
    let (closed, disk) := b.close s.disk
    takeOver b.warnings.length closed { s with disk := disk }

def readLayout (file : String) : Run (Layout Float) := do
  match (← get).disk.readText (Location.ofString file) with
  | .error e => throw e.message
  | .ok text =>
    match Json.read text with
    | .error f => throw (f.message text)
    | .ok v =>
      match Page.ofJson v with
      | .error ps => throw (Problem.summary Layout.recordName ps)
      | .ok p => return p.layout

def describe : Option (Node Float) → String
  | none => "none"
  | some n =>
    n.id ++ " kind=" ++ n.kind.name ++ " ast=" ++ n.joined?.getD "-" ++ " text=" ++ Text.quoted n.text

def describeOperands : Option (Operands Float) → String
  | none => "none"
  | some o => "left=" ++ describe o.left ++ " right=" ++ describe o.right

def summaryText : Option JoinSummary → String
  | none => ""
  | some r =>
    " integers=" ++ Nat.repr r.numerals ++ " operators=" ++ Nat.repr r.operators ++
      " mixed=" ++ Nat.repr r.mixedNumbers

def writeMap (m : SurfaceMap Float) (file : String) : Run Unit := do
  let place := Location.ofString file
  let s ← get
  match s.disk.makeDirectories place.parent with
  | .error e => throw e.message
  | .ok disk =>
    set { s with disk := disk }
    match disk.writeText place (m.toJson.pretty ++ "\n") with
    | .error e => throw e.message
    | .ok disk => modify fun s => { s with disk := disk }

def reportJoins (recovered : Nat) (r : PathReport) : Run Unit := do
  if recovered ≠ 0 then warn (Nat.repr recovered ++ " atom(s) joined from annotations only")
  if !r.ok then
    warn (Nat.repr r.missing.length ++ " interactive atom(s) without ast id: " ++
      ", ".intercalate r.missing)

/-- Answers the questions about the map. -/
def answer (o : Options) (t : Tolerances Float) (m : SurfaceMap Float) : Run Unit := do
  if let some (x, y) := o.point then say ("HIT: " ++ describe (m.hit? t x y))
  if let some path := o.operandsAt then say ("OPERANDS: " ++ describeOperands (m.operands? t path))
  if let some file := o.mapFile then writeMap m file

def body (o : Options) (environment : String → Option String) (stamps : Nat → Stamp) : Run Unit := do
  openTrace o
  match Tolerances.ofEnvironment environment with
  | .error ps => throw (Problem.summary Tolerances.recordName ps)
  | .ok t =>
    let (ticket, session) := (Session.start t false).request o.formula
    traceNew stamps session.log
    if !ticket.isInstrumented then
      warn (ticket.outcome.reason.getD "None" ++ "; click targeting disabled")
    let layout ← readLayout o.layout
    let (map?, session) := session.complete ticket layout
    traceNew stamps session.log
    match map? with
    | none => throw "rebuild was discarded"
    | some m =>
      let (m, recovered) := m.recover layout
      reportJoins recovered m.report
      answer o t m
      say ("OK: atoms=" ++ Nat.repr m.atoms.length ++ summaryText session.summary)

def runWith (o : Options) (environment : String → Option String) (stamps : Nat → Stamp) (disk : Disk) :
    CommandResult × Disk :=
  let (outcome, s) := (body o environment stamps).run.run ⟨[], disk, none, 0⟩
  let (s, status) :=
    match outcome with
    | .ok () => (s, 0)
    | .error why => ({ s with lines := s.lines ++ ["ERROR: " ++ why] }, 1)
  let s := closeTrace s
  (⟨CommandResult.lines s.lines, .returned status⟩, s.disk)

/-- Runs the command on its arguments, in an environment and on a disk.  The
entries of the trace get their stamps in order. -/
def run (args : List String) (environment : String → Option String) (stamps : Nat → Stamp)
    (disk : Disk) : CommandResult × Disk :=
  match Options.ofArguments args with
  | .error e => (.refused e, disk)
  | .ok o => runWith o environment stamps disk

end SurfaceCommand
end FormulaMap

/-
Sessions: which surface map is in use.

A request for a formula issues a ticket with the source to render.  When the
renderer's layout comes back, a map is built, refined and joined, and becomes the
active one, but only if no later ticket has been issued.  Every step is logged
with the number of the ticket it concerns, and a sink, if there is one, is called
with every entry.
-/
import FormulaMap.Formula.Instrumented
import FormulaMap.Surface.Build
import FormulaMap.Surface.Enhance
import FormulaMap.Surface.Hit
import FormulaMap.Surface.Join
import FormulaMap.Surface.Operands

namespace FormulaMap

/-- A requested rebuild. -/
structure Ticket where
  generation : Nat
  formula : String
  expr : Option Expr
  outcome : Instrumented
  /-- What is to be rendered: annotated source, or the formula as it is. -/
  source : String
  deriving DecidableEq, Repr

namespace Ticket

def isInstrumented (t : Ticket) : Bool := t.outcome.success

end Ticket

/-- One step of a rebuild. -/
inductive RebuildStep where
  | requested (formula : String)
  | instrumented (warnings : List String)
  | notInstrumented (formula : String) (reason : Option String) (warnings : List String)
  | rendered
  | renderFailed (error : String)
  | built (atoms : Nat)
  | enhanced
  | joined (summary : JoinSummary)
  | installed
  /-- The layout came too late; `latest` is the last ticket issued. -/
  | discarded (latest : Nat)
  deriving DecidableEq, Repr

structure LogEntry where
  generation : Nat
  step : RebuildStep
  deriving DecidableEq, Repr

/-- What can be called with the entries of a log, one at a time. -/
class EventSink (σ : Type) where
  append : σ → LogEntry → σ

/-- The sink that keeps what it is called with. -/
instance : EventSink (List LogEntry) where
  append entries e := entries ++ [e]

structure Session (α : Type) (σ : Type := List LogEntry) where
  settings : Tolerances α
  /-- The number of the last ticket issued. -/
  generation : Nat
  activeMap : Option (SurfaceMap α)
  activeTicket : Option Ticket
  summary : Option JoinSummary
  log : List LogEntry
  sink : Option σ

namespace Session

variable {α σ : Type}

/-- A session before the first request. -/
def fresh (settings : Tolerances α) (sink : Option σ) : Session α σ where
  settings := settings
  generation := 0
  activeMap := none
  activeTicket := none
  summary := none
  log := []
  sink := sink

/-- A session whose sink, if it has one, keeps the entries. -/
def start (settings : Tolerances α) (withSink : Bool) : Session α :=
  fresh settings (if withSink then some [] else none)

variable [EventSink σ]

def record (generation : Nat) (step : RebuildStep) (s : Session α σ) : Session α σ :=
  let entry : LogEntry := ⟨generation, step⟩
  let s := { s with log := s.log ++ [entry] }
  match s.sink with
  | some k => { s with sink := some (EventSink.append k entry) }
  | none => s

/-! ## Requests -/

/-- The ticket for a formula, and what there is to log about it. -/
def issue (generation : Nat) (formula : String) : Ticket × RebuildStep :=
  let (e, outcome, warnings) := Instrumented.ofFormula formula
  let messages := warnings.map ParseWarning.message
  if outcome.success then
    (⟨generation, formula, e, outcome, outcome.source⟩, .instrumented messages)
  else
    (⟨generation, formula, none, outcome, formula⟩,
      .notInstrumented formula outcome.reason messages)

/-- Asks for a rebuild; every earlier ticket becomes stale. -/
def request (formula : String) (s : Session α σ) : Ticket × Session α σ :=
  let generation := s.generation + 1
  let (ticket, step) := issue generation formula
  let s := { s with generation := generation }
  (ticket, (s.record generation (.requested formula)).record generation step)

/-! ## Completion -/

variable [Coordinate α]

/-- The map of a layout, before it is joined. -/
def surfaceOf (settings : Tolerances α) (layout : Layout α) : SurfaceMap α :=
  SurfaceMap.build settings [] layout

/-- The map that a ticket and its layout give, and how much was joined. -/
def joinTicket (settings : Tolerances α) (t : Ticket) (layout : Layout α) :
    SurfaceMap α × Option JoinSummary :=
  let refined := (surfaceOf settings layout).enhance settings
  match t.expr with
  | some e =>
    let (m, summary) := refined.join settings e
    (m, some summary)
  | none => (refined, none)

/-- Takes over what a join has counted, or that there was none. -/
def summarize (generation : Nat) (summary : Option JoinSummary) (s : Session α σ) :
    Session α σ :=
  match summary with
  | some r => { s with summary := some r }.record generation (.joined r)
  | none => { s with summary := none }

/-- Puts a map into use and logs how it came about. -/
def install (t : Ticket) (layout : Layout α) (s : Session α σ) : Session α σ :=
  let g := t.generation
  let (m, summary) := joinTicket s.settings t layout
  let s := s.record g (.built (surfaceOf s.settings layout).atoms.length)
  let s := s.record g .enhanced
  let s := s.summarize g summary
  let s := { s with activeMap := some m }
  let s := { s with activeTicket := some t }
  s.record g .installed

/-- Takes the layout for a ticket.  The new map is returned, or nothing when the
ticket is stale. -/
def complete (t : Ticket) (layout : Layout α) (s : Session α σ) :
    Option (SurfaceMap α) × Session α σ :=
  if t.generation = s.generation then
    let s := s.install t layout
    (s.activeMap, s)
  else (none, s.record t.generation (.discarded s.generation))

/-- Requests, renders and completes.  A renderer that fails leaves the active map
in use, and its error is passed on. -/
def rebuild {ε : Type} (formula : String) (render : String → Except ε (Layout α))
    (message : ε → String) (s : Session α σ) : Except ε (Option (SurfaceMap α)) × Session α σ :=
  let (t, s) := s.request formula
  match render t.source with
  | .error e => (.error e, s.record t.generation (.renderFailed (message e)))
  | .ok layout =>
    let (m, s) := (s.record t.generation .rendered).complete t layout
    (.ok m, s)

/-! ## Queries -/

def hit? (x y : α) (s : Session α σ) : Option (Node α) :=
  s.activeMap.bind fun m => m.hit? s.settings x y

def operands? (path : String) (s : Session α σ) : Option (Operands α) :=
  s.activeMap.bind fun m => m.operands? s.settings path

def select? (n : Node α) (s : Session α σ) : Option (OperatorSelection α) :=
  s.activeMap.bind fun m => m.select? s.settings n

end Session
end FormulaMap

/-
The log of a session as a trace: every entry is an event.
-/
import FormulaMap.Session
import FormulaMap.Trace.Event

namespace FormulaMap
namespace RebuildStep

def kind : RebuildStep → EventKind
  | requested _ => .request
  | instrumented _ => .instrument
  | notInstrumented .. => .error
  | rendered => .render
  | renderFailed _ => .error
  | built _ => .build
  | enhanced => .enhance
  | joined _ => .correlate
  | installed => .install
  | discarded _ => .discard

def message : RebuildStep → String
  | requested _ => "rebuild requested"
  | instrumented _ => "instrumented latex"
  | notInstrumented .. => "instrumentation failed; rendering plain latex"
  | rendered => "rendered"
  | renderFailed _ => "renderer failed"
  | built _ => "surface map built"
  | enhanced => "surface map enhanced"
  | joined _ => "correlated with ast"
  | installed => "surface map installed"
  | discarded _ => "stale rebuild discarded"

def texts (ss : List String) : Json := .arr (ss.map .str)

/-- What the event says beyond its message. -/
def data : RebuildStep → Option Json
  | requested formula => some (.obj [("latex", .str formula)])
  | instrumented [] => none
  | instrumented (w :: ws) => some (.obj [("warnings", texts (w :: ws))])
  | notInstrumented formula reason warnings =>
    some (.obj [("reason", .ofString? reason), ("latex", .str formula), ("warnings", texts warnings)])
  | rendered => none
  | renderFailed error => some (.obj [("error", .str error)])
  | built atoms => some (.obj [("atoms", .ofNat atoms)])
  | enhanced => none
  | joined r =>
    some (.obj [("integers", .ofNat r.numerals), ("operators", .ofNat r.operators),
      ("mixed_numbers", .ofNat r.mixedNumbers)])
  | installed => none
  | discarded latest => some (.obj [("latest", .ofNat latest)])

end RebuildStep

def LogEntry.event (e : LogEntry) : Event where
  kind := e.step.kind
  message := e.step.message
  data := e.step.data
  refs := none
  generation := some e.generation

end FormulaMap

/-
The client of the step engine.

Whatever happens to a request, its result is a `StepResult`: a failure of the
transport, a status other than 200 and an answer of an unexpected shape become
results that say so.  The client remembers its last request, and the answer to
it if that was an object.
-/
import FormulaMap.Engine.Result
import FormulaMap.Json.Writer
import FormulaMap.Number.FloatText

namespace FormulaMap

/-! ## What can happen to a request -/

/-- An exception that the transport raised.  An interruption of the program is none: it ends
the call as well. -/
structure TransportException where
  name : String
  message : String
  /-- Whether the transport itself is the origin, and not something beneath it. -/
  ofTransport : Bool
  deriving DecidableEq, Repr

structure EngineError where
  kind : String
  message : String
  retryable : Bool
  deriving DecidableEq, Repr

namespace EngineError

def text (e : EngineError) : String :=
  "EngineError(kind=" ++ Text.quoted e.kind ++ ", retryable=" ++
    (if e.retryable then "True" else "False") ++ "): " ++ e.message

def badResponse (message : String) : EngineError := ⟨"bad_response", message, false⟩

end EngineError

namespace TransportException

def timeoutNames : List String := ["Timeout", "ReadTimeout", "ConnectTimeout"]

/-- The exception as it is shown: its name and its quoted message. -/
def shown (e : TransportException) : String := e.name ++ "(" ++ Text.quoted e.message ++ ")"

def toEngineError (e : TransportException) : EngineError :=
  if timeoutNames.contains e.name then ⟨"timeout", e.message, true⟩
  else if e.ofTransport then ⟨"network", e.message, true⟩
  else ⟨"network", e.shown, false⟩

end TransportException

structure Response where
  status : Int
  text : String
  /-- The decoded body, or why it could not be decoded. -/
  body : Except String Json

inductive Outcome where
  | answered (r : Response)
  | raised (e : TransportException)
  | refused (e : EngineError)

namespace Outcome

/-- Whether a request that got this status may be sent again. -/
def isRetryable (status : Int) : Bool := 500 ≤ status || status = 429

/-- The object that answers a request, or what went wrong. -/
def body? : Outcome → Except EngineError (Fields Json)
  | raised e => .error e.toEngineError
  | refused e => .error e
  | answered r =>
    if r.status ≠ 200 then
      .error ⟨"http", "HTTP " ++ String.ofList (Json.intChars r.status) ++ ": " ++ r.text,
        isRetryable r.status⟩
    else
      match r.body with
      | .error why => .error (.badResponse ("Malformed JSON response: " ++ why))
      | .ok (.obj fs) => .ok fs
      | .ok _ => .error (.badResponse "Response body is not an object.")

end Outcome

/-! ## The client -/

structure Client where
  baseUrl : String
  timeout : Float
  lastRequest : Option (Fields Json)
  lastResponse : Option (Fields Json)

namespace Client

def endpoint : String := "/api/orchestrator/v5/step"
def defaultUrl : String := "http://localhost:4201"
def defaultTimeout : Float := 5.0

/-- The variables of the environment that configure a client. -/
def urlVariable : String := "MATHSURF_ENGINE_URL"
def timeoutVariable : String := "MATHSURF_ENGINE_TIMEOUT_S"

def notANumber (s : String) : String := "could not convert string to float: " ++ Text.quoted s

def nonEmpty (s : Option String) : Option String := s.filter fun t => !t.isEmpty

/-- The timeout of the environment; an unreadable one is refused. -/
def timeoutOf (environment : String → Option String) : Except String Float :=
  match nonEmpty (environment timeoutVariable) with
  | none => .ok defaultTimeout
  | some s =>
    match FloatText.readArgument? s with
    | some x => .ok x
    | none => .error (notANumber s)

/-- A client with what is given, what the environment says, and the defaults, in
this order. -/
def create (url : Option String) (timeout : Option Float) (environment : String → Option String) :
    Except String Client := do
  let timeout ←
    match timeout with
    | some x => pure x
    | none => timeoutOf environment
  return ⟨((nonEmpty url).or (nonEmpty (environment urlVariable))).getD defaultUrl, timeout, none, none⟩

/-- The address that requests go to. -/
def stepUrl (c : Client) : String :=
  String.ofList (c.baseUrl.toList.reverse.dropWhile (· == '/')).reverse ++ endpoint

/-- Tries a request, whose fate is `o`.  The request is remembered and the last answer
forgotten before it is sent, and an object that answers it is remembered whatever its shape. -/
def attempt (r : StepRequest) (o : Outcome) (c : Client) : Except EngineError StepResult × Client :=
  let c := { c with lastRequest := some r.payload, lastResponse := none }
  match o.body? with
  | .error e => (.error e, c)
  | .ok body =>
    let c := { c with lastResponse := some body }
    match StepResult.ofBody body with
    | .ok result => (.ok result, c)
    | .error f => (.error (.badResponse f.message), c)

/-- Sends a request; what goes wrong becomes a result that says so. -/
def runStep (r : StepRequest) (o : Outcome) (c : Client) : StepResult × Client :=
  match c.attempt r o with
  | (.ok result, c) => (result, c)
  | (.error e, c) => (.failed e.text c.lastResponse, c)

end Client
end FormulaMap

/-
Results of a step, read from the engine's answer.

The answer is an object.  Empty, zero, false and null values count as absent in
it; a nested part that is present must be an object, and the fields that make up
the result are checked like those of any record.
-/
import FormulaMap.Engine.Request

namespace FormulaMap

/-- A step that the engine offers. -/
structure StepChoice where
  id : String
  label : String
  primitiveId : String
  targetNodeId : Option String
  deriving DecidableEq, Repr

namespace StepChoice

def primitiveName : StepRequest.FieldName := ⟨"primitiveId", "primitive_id"⟩
def targetName : StepRequest.FieldName := ⟨"targetNodeId", "target_node_id"⟩

def ofJson (v : Json) : Checked StepChoice :=
  match Field.record v with
  | .error ps => .error ps
  | .ok fs =>
    .map2 (fun (id, label) (primitive, target) => ⟨id, label, primitive, target⟩)
      (.both (Field.required fs "id" Field.string) (Field.required fs "label" Field.string))
      (.both (Field.required fs (StepRequest.given fs primitiveName) Field.string)
        (Field.withDefault fs (StepRequest.given fs targetName) none (Field.optional Field.string)))

def toJson (c : StepChoice) : Json :=
  .obj [("id", .str c.id), ("label", .str c.label), (primitiveName.outer, .str c.primitiveId),
    (targetName.outer, .ofString? c.targetNodeId)]

end StepChoice

inductive StepStatus where
  | applied
  | noCandidates
  | engineError
  | choice
  deriving DecidableEq, Repr

namespace StepStatus

def all : List StepStatus := [applied, noCandidates, engineError, choice]

def name : StepStatus → String
  | applied => "step-applied"
  | noCandidates => "no-candidates"
  | engineError => "engine-error"
  | choice => "choice"

def ofName? (s : String) : Option StepStatus := all.find? fun t => t.name == s

def ofJson (v : Json) : Checked StepStatus :=
  match v with
  | .str s =>
    match ofName? s with
    | some t => .ok t
    | none => .fail .literalMismatch
  | _ => .fail .literalMismatch

end StepStatus

structure StepResult where
  status : StepStatus
  primitiveId : Option String
  newExpression : Option String
  choices : List StepChoice
  error : Option String
  /-- The answer as it came. -/
  raw : Option (Fields Json)

namespace StepResult

/-- A result that only says what went wrong. -/
def failed (message : String) (raw : Option (Fields Json)) : StepResult :=
  ⟨.engineError, none, none, [], some message, raw⟩

def toJson (r : StepResult) : Json :=
  .obj [("status", .str r.status.name), ("primitiveId", .ofString? r.primitiveId),
    ("newExpressionLatex", .ofString? r.newExpression),
    ("choices", .arr (r.choices.map StepChoice.toJson)), ("error", .ofString? r.error),
    ("raw", .ofOption .obj r.raw)]

end StepResult

/-- How an answer fails to have the expected shape. -/
inductive ShapeFault where
  /-- A part that should be an object is of another type. -/
  | notObject (key type : String)
  | invalid (problems : Nat)
  deriving DecidableEq, Repr

namespace ShapeFault

def message : ShapeFault → String
  | notObject key type =>
    "Unexpected response shape: " ++ key ++ " is " ++ type ++ ", expected object"
  | invalid n => "Unexpected response shape: " ++ Nat.repr n ++ " validation error(s)"

end ShapeFault

namespace StepResult

/-- The name of a value's type. -/
def typeName : Json → String
  | .null => "NoneType"
  | .bool _ => "bool"
  | .int _ => "int"
  | .float _ => "float"
  | .str _ => "str"
  | .arr _ => "list"
  | .obj _ => "dict"

/-- The value under a key, unless it counts as absent. -/
def present? (key : String) (body : Fields Json) : Option Json :=
  (Fields.get? key body).filter Json.isTruthy

/-- A part of the answer that is an object or absent. -/
def part (key : String) (body : Fields Json) : Except ShapeFault (Fields Json) :=
  match present? key body with
  | none => .ok []
  | some (.obj fs) => .ok fs
  | some v => .error (.notObject key (typeName v))

def valueAt (key : String) (fs : Fields Json) : Json := (Fields.get? key fs).getD .null

/-- The error code of an engine result that is not fine. -/
def errorCode (engine : Fields Json) : Json :=
  if engine.isEmpty || ((Fields.get? "ok" engine).getD (.bool true)).isTruthy then .null
  else valueAt "errorCode" engine

/-- The primitive that was applied: the answer's own, or that of its notes. -/
def primitiveOf (body : Fields Json) : Except ShapeFault Json :=
  match valueAt "primitiveId" body with
  | .null => (part "primitiveDebug" body).map (valueAt "primitiveId")
  | v => .ok v

/-- Reads the answer of the engine. -/
def ofBody (body : Fields Json) : Except ShapeFault StepResult := do
  let engine ← part "engineResult" body
  let primitive ← primitiveOf body
  let optionalText := Field.optional Field.string
  let result : Checked StepResult :=
    .map2 (fun (status, primitive, expression) (choices, error) =>
        ⟨status, primitive, expression, choices, error, some body⟩)
      (.both (StepStatus.ofJson ((present? "status" body).getD (.str StepStatus.engineError.name)))
        (.both (optionalText primitive) (optionalText (valueAt "newExpressionLatex" engine))))
      (.both (Field.list StepChoice.ofJson ((present? "choices" body).getD (.arr [])))
        (optionalText (errorCode engine)))
  result.mapError fun ps => .invalid ps.length

end StepResult
end FormulaMap

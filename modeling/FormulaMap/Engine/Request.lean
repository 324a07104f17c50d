/-
Requests to the step engine: apply one step at a place of an expression.

The place is a structural path, or an operator's number when there is no path.
A field may be given under its outer name, which the engine uses, or under its
inner one.
-/
import FormulaMap.Formula.Path
import FormulaMap.Record.Field
import FormulaMap.Surface.Node
import FormulaMap.Text.Quoted

namespace FormulaMap

structure StepRequest where
  sessionId : Option String
  expression : String
  selectionPath : Option String
  operatorIndex : Option Nat
  preferredPrimitiveId : Option String
  surfaceNodeKind : Option String
  courseId : String
  userRole : String
  deriving DecidableEq, Repr

namespace StepRequest

def defaultSession : String := "default-session"
def defaultCourse : String := "default"
def defaultRole : String := "student"

/-- The names of a field: the engine's and the caller's. -/
structure FieldName where
  outer : String
  inner : String

def sessionName : FieldName := ⟨"sessionId", "session_id"⟩
def expressionName : FieldName := ⟨"expressionLatex", "expression_latex"⟩
def pathName : FieldName := ⟨"selectionPath", "selection_path"⟩
def indexName : FieldName := ⟨"operatorIndex", "operator_index"⟩
def preferredName : FieldName := ⟨"preferredPrimitiveId", "preferred_primitive_id"⟩
def kindName : FieldName := ⟨"surfaceNodeKind", "surface_node_kind"⟩
def courseName : FieldName := ⟨"courseId", "course_id"⟩
def roleName : FieldName := ⟨"userRole", "user_role"⟩

def allNames : List FieldName :=
  [sessionName, expressionName, pathName, indexName, preferredName, kindName, courseName, roleName]

/-! ## Rules -/

def pathRule (p : String) : Option ProblemCause :=
  if Path.isValid p then none else some (.rule ("invalid structural path: " ++ Text.quoted p))

def presentRule (s : String) : Option ProblemCause :=
  if s.isEmpty then some .stringTooShort else none

/-- A path that may be missing, but must be well formed. -/
def checkedPath : Option String → Checked (Option String)
  | none => .ok none
  | some p => (Checked.ensure pathRule (.ok p)).map some

/-! ## Reading -/

def given (fs : Fields Json) (n : FieldName) : String := Field.givenName fs n.outer n.inner

def readPath (v : Json) : Checked (Option String) :=
  Field.optional (fun v => Checked.ensure pathRule (Field.string v)) v

def readIndex (v : Json) : Checked (Option Nat) :=
  Field.optional (fun v => (Field.nonNegativeInt v).map Int.toNat) v

def ofFields (fs : Fields Json) : Checked StepRequest :=
  let text? (n : FieldName) (default : Option String) :=
    Field.withDefault fs (given fs n) default (Field.optional Field.string)
  let text (n : FieldName) (default : String) :=
    Field.withDefault fs (given fs n) default Field.string
  let first : Checked ((Option String × String) × Option String × Option Nat) :=
    .both
      (.both (text? sessionName (some defaultSession))
        (Field.required fs (given fs expressionName) Field.nonEmptyString))
      (.both (Field.withDefault fs (given fs pathName) none readPath)
        (Field.withDefault fs (given fs indexName) none readIndex))
  let second : Checked ((Option String × Option String) × String × String) :=
    .both (.both (text? preferredName none) (text? kindName none))
      (.both (text courseName defaultCourse) (text roleName defaultRole))
  let request : Checked StepRequest :=
    .map2
      (fun ((session, expression), path, index) ((preferred, kind), course, role) =>
        ⟨session, expression, path, index, preferred, kind, course, role⟩)
      first second
  Checked.alsoOk request (Field.noOthers fs (allNames.map (given fs)))

def ofJson (v : Json) : Checked StepRequest := do ofFields (← Field.record v)

/-- The request for a clicked node.  The operator's number is only sent for a
node without a path. -/
def ofNode {α : Type} (expression : String) (n : Node α) (preferred : Option String)
    (session : Option String) : Checked StepRequest :=
  .map2
    (fun expression path =>
      { sessionId := session
        expression := expression
        selectionPath := path
        operatorIndex := if n.isJoined then none else n.slot
        preferredPrimitiveId := preferred
        surfaceNodeKind := some n.kind.name
        courseId := defaultCourse
        userRole := defaultRole })
    (Checked.under expressionName.inner (Checked.ensure presentRule (.ok expression)))
    (Checked.under pathName.inner (checkedPath n.path))

/-! ## Writing -/

def optionalText (n : FieldName) (s : Option String) : Fields Json :=
  (s.map fun t => (n.outer, Json.str t)).toList

/-- What is sent: every field that has a value, under its outer name. -/
def payload (r : StepRequest) : Fields Json :=
  optionalText sessionName r.sessionId ++ [(expressionName.outer, .str r.expression)] ++
    optionalText pathName r.selectionPath ++
    (r.operatorIndex.map fun i => (indexName.outer, Json.ofNat i)).toList ++
    optionalText preferredName r.preferredPrimitiveId ++ optionalText kindName r.surfaceNodeKind ++
    [(courseName.outer, .str r.courseId), (roleName.outer, .str r.userRole)]

end StepRequest
end FormulaMap

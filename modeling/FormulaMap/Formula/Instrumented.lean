/-
Instrumented formulas: the annotated source of a formula, or the reason why there
is none.

A formula is read, its expression is given paths, and the expression is written
with annotations.  An outcome is consistent when a success has source and a
failure has a reason.
-/
import FormulaMap.Formula.Annotate
import FormulaMap.Record.Field

namespace FormulaMap

/-- The outcome of annotating: source on success, a reason on failure. -/
structure Instrumented where
  success : Bool
  source : String
  reason : Option String
  deriving DecidableEq, Repr

namespace Instrumented

def emptySource : String := "toInstrumentedLatex returned empty result"
def noExpression : String := "No AST provided"
def emptyGivenSource : String := "toInstrumentedLatex failed for provided AST"

def failure (reason : String) : Instrumented := ⟨false, "", some reason⟩

/-- Why an outcome is inconsistent, if it is. -/
def objection? (r : Instrumented) : Option String :=
  if r.success && Text.allBlank r.source then
    some "InstrumentationResult.latex must be non-empty on success"
  else if !r.success && (r.reason.getD "").isEmpty then
    some "InstrumentationResult.reason is required on failure"
  else none

def ofExpr (emptyReason : String) (e : Expr) : Instrumented :=
  if Text.allBlank e.annotated then failure emptyReason else ⟨true, e.annotated, none⟩

/-- Annotates a given expression, assigning paths first when the root has none.
The expression is returned with the paths that were used. -/
def ofExpr? : Option Expr → Option Expr × Instrumented
  | none => (none, failure noExpression)
  | some e =>
    let a := if e.path.isNone then e.assignPaths else e
    (some a, ofExpr emptyGivenSource a)

/-- Reads a formula, assigns paths and annotates it. -/
def ofFormula (s : String) : Option Expr × Instrumented × List ParseWarning :=
  let parsed := Parsed.ofString s
  match parsed.expr with
  | none => (none, failure Parsed.failed, parsed.warnings)
  | some e => (some e.assignPaths, ofExpr emptySource e.assignPaths, parsed.warnings)

/-! ## As data -/

def fields (r : Instrumented) : List (String × Json) :=
  [("success", .bool r.success), ("latex", .str r.source), ("reason", .ofString? r.reason)]

def toJson (r : Instrumented) : Json := .obj r.fields

def ofJson (v : Json) : Checked Instrumented :=
  match Field.record v with
  | .error ps => .error ps
  | .ok fs =>
    Checked.ensure (fun r => (objection? r).map .rule) <|
      .map2 (fun success (source, reason) => ⟨success, source, reason⟩)
        (Field.required fs "success" Field.bool)
        (.both (Field.required fs "latex" Field.string)
          (Field.withDefault fs "reason" none (Field.optional Field.string)))

end Instrumented
end FormulaMap

/-
The command that annotates a formula.

It prints the annotated source, and on demand the expression and its exact
value, as lines or as one JSON object.
-/
import FormulaMap.Command.Arguments
import FormulaMap.Formula.Data
import FormulaMap.Formula.Instrumented
import FormulaMap.Formula.Value
import FormulaMap.Json.Writer

namespace FormulaMap
namespace InstrumentCommand

structure Options where
  formula : String
  printExpr : Bool
  evaluate : Bool
  asJson : Bool
  deriving DecidableEq, Repr

def printExprOption : OptionSpec := ⟨"--print-ast", 0⟩
def evaluateOption : OptionSpec := ⟨"--evaluate", 0⟩
def jsonOption : OptionSpec := ⟨"--json", 0⟩

def optionSpecs : List OptionSpec := [printExprOption, evaluateOption, jsonOption]

def Options.ofArguments (args : List String) : Except UsageError Options := do
  let a ← Arguments.parse optionSpecs args
  return ⟨← a.onlyWord, a.has printExprOption.name, a.has evaluateOption.name,
    a.has jsonOption.name⟩

/-- What there is to report: everything is known before anything is printed,
except the text of the value. -/
structure Report where
  expr : Option Expr
  outcome : Instrumented
  warnings : List String
  value : Option Rat

/-- The value of an expression when it is asked for. -/
def valuation (o : Options) (e : Option Expr) : Except ZeroDivisor Valuation :=
  match e with
  | some e => if o.evaluate then e.value else .ok ⟨none, []⟩
  | none => .ok ⟨none, []⟩

def report (o : Options) : Except ZeroDivisor Report := do
  let (e, outcome, warnings) := Instrumented.ofFormula o.formula
  let v ← valuation o e
  return ⟨e, outcome, warnings.map ParseWarning.message ++ v.issues.map ValueIssue.message, v.value⟩

def errorLine (why : String) : String := "ERROR: " ++ why

/-- The text of a value, or why there is none. -/
def valueText (q : Rat) : Except String String :=
  match Numeral.text? q with
  | some s => .ok s
  | none => .error Numeral.tooLong

def returned (status : Nat) (lines : List String) : CommandResult :=
  ⟨CommandResult.lines lines, .returned status⟩

def jsonObject (o : Options) (r : Report) (value : Json) : Json :=
  .obj <| r.outcome.fields ++ [("warnings", .arr (r.warnings.map .str))] ++
    (if o.printExpr then [("ast", .ofOption Expr.toJson r.expr)] else []) ++
    (if o.evaluate then [("value", value)] else [])

def asJson (o : Options) (r : Report) : CommandResult :=
  match r.value.mapM valueText with
  | .error why => returned 1 [errorLine why]
  | .ok value =>
    returned (if r.outcome.success then 0 else 1)
      [(jsonObject o r (.ofString? value)).sorted.write Json.spaced]

def asLines (o : Options) (r : Report) : CommandResult :=
  let warnings := r.warnings.map fun w => "WARNING: " ++ w
  if r.outcome.success then
    let found := warnings ++ ["OK: " ++ r.outcome.source] ++
      if o.printExpr then [(Json.ofOption Expr.toJson r.expr).pretty] else []
    match r.value.mapM valueText with
    | .error why => returned 1 (found ++ [errorLine why])
    | .ok value => returned 0 (found ++ (value.map fun s => "VALUE: " ++ s).toList)
  else returned 1 (warnings ++ [errorLine (r.outcome.reason.getD "None")])

def runWith (o : Options) : CommandResult :=
  match report o with
  | .error z => returned 1 [errorLine z.message]
  | .ok r => if o.asJson then asJson o r else asLines o r

/-- Runs the command on its arguments. -/
def run (args : List String) : CommandResult :=
  match Options.ofArguments args with
  | .error e => .refused e
  | .ok o => runWith o

end InstrumentCommand
end FormulaMap

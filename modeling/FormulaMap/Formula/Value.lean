/-
The exact value of an expression.

Numerals are read as rationals, and the four operations, fractions and mixed
numbers are exact.  What has no value is reported, one issue for each node that
fails of itself, in reading order; a node above a failing one is silent.
-/
import FormulaMap.Formula.Parser
import FormulaMap.Number.Numeral
import FormulaMap.Text.Quoted

namespace FormulaMap

inductive ValueIssue where
  | unsupportedNumeral (text : String)
  | unsupportedMixed
  | divisionByZero
  | noExpression
  | unreadableFormula
  deriving DecidableEq, Repr

/-- A numeral is itself a quotient by zero; `sign` is that of its dividend. -/
structure ZeroDivisor where
  sign : Int
  deriving DecidableEq, Repr

/-- A value, if there is one, and the issues met on the way to it. -/
structure Valuation where
  value : Option Rat
  issues : List ValueIssue
  deriving DecidableEq, Repr

namespace Valuation

def fail (i : ValueIssue) : Valuation := ⟨none, [i]⟩

def of (q : Rat) : Valuation := ⟨some q, []⟩

/-- Joins two valuations; `f` may fail of itself. -/
def combine (f : Rat → Rat → Except ValueIssue Rat) (a b : Valuation) : Valuation :=
  match a.value, b.value with
  | some x, some y =>
    match f x y with
    | .ok z => ⟨some z, a.issues ++ b.issues⟩
    | .error i => ⟨none, a.issues ++ b.issues ++ [i]⟩
  | _, _ => ⟨none, a.issues ++ b.issues⟩

end Valuation

def divide (x y : Rat) : Except ValueIssue Rat :=
  if y = 0 then .error .divisionByZero else .ok (x / y)

namespace BinaryOperation

def apply : BinaryOperation → Rat → Rat → Except ValueIssue Rat
  | add, x, y => .ok (x + y)
  | subtract, x, y => .ok (x - y)
  | multiply, x, y => .ok (x * y)
  | divide, x, y => FormulaMap.divide x y

end BinaryOperation

namespace Numeral

/-- The rational a text stands for; `none` when it stands for nothing. -/
def rational? (text : String) : Except ZeroDivisor (Option Rat) :=
  match read text with
  | value q => .ok (some q)
  | unreadable => .ok none
  | zeroDivisor s => .error ⟨s⟩

end Numeral

namespace Expr

def mixedValue (w n d : Option Rat) : Valuation :=
  match w, n, d with
  | some w, some n, some d =>
    match FormulaMap.divide n d with
    | .ok q => .of (w + q)
    | .error i => .fail i
  | _, _, _ => .fail .unsupportedMixed

def value : Expr → Except ZeroDivisor Valuation
  | numeral t _ => do
    match ← Numeral.rational? t with
    | some q => return .of q
    | none => return .fail (.unsupportedNumeral t)
  | mixed w n d _ =>
    return mixedValue (← Numeral.rational? w) (← Numeral.rational? n) (← Numeral.rational? d)
  | fraction n d _ => return .combine divide (← n.value) (← d.value)
  | negation a _ => do
    let v ← a.value
    return ⟨v.value.map fun q => -q, v.issues⟩
  | binary o l r _ => return .combine o.apply (← l.value) (← r.value)

/-- The value of an expression that may be missing. -/
def valueOf? : Option Expr → Except ZeroDivisor Valuation
  | none => .ok (.fail .noExpression)
  | some e => e.value

end Expr

namespace Valuation

/-- The value of a formula, with the warnings of reading it. -/
def ofFormula (s : String) : Except ZeroDivisor (Valuation × List ParseWarning) :=
  let parsed := Parsed.ofString s
  match parsed.expr with
  | none => .ok (.fail .unreadableFormula, parsed.warnings)
  | some e => do return (← e.value, parsed.warnings)

end Valuation

/-! ## Messages -/

def ValueIssue.message : ValueIssue → String
  | unsupportedNumeral t => "unsupported numeral " ++ Text.quoted t
  | unsupportedMixed => "unsupported mixed number parts"
  | divisionByZero => "division by zero"
  | noExpression => "no AST to evaluate"
  | unreadableFormula => Parsed.failed

def ZeroDivisor.message (z : ZeroDivisor) : String :=
  "Fraction(" ++ (if z.sign < 0 then "-1" else if z.sign = 0 then "0" else "1") ++ ", 0)"

end FormulaMap

/-
Arithmetic expressions.

An expression is a numeral, one of four binary operations, a negation, a typeset
fraction, or a mixed number such as one and two thirds.  The sign of a negative
numeral is part of its text.  Every node has room for the path that addresses
it; `none` means that no path has been assigned.
-/
import FormulaMap.Formula.Operator

namespace FormulaMap

inductive BinaryOperation where
  | add
  | subtract
  | multiply
  | divide
  deriving DecidableEq, Repr

namespace BinaryOperation

def symbol : BinaryOperation → String
  | add => "+"
  | subtract => "-"
  | multiply => "*"
  | divide => "/"

def ofSymbol? (s : String) : Option BinaryOperation :=
  if s == "+" then some add
  else if s == "-" then some subtract
  else if s == "*" then some multiply
  else if s == "/" then some divide
  else none

def isAdditive : BinaryOperation → Bool
  | add => true
  | subtract => true
  | _ => false

theorem ofSymbol?_symbol (o : BinaryOperation) : ofSymbol? o.symbol = some o := by
  cases o <;> decide

end BinaryOperation

inductive Expr where
  | numeral (text : String) (path : Option String)
  | binary (op : BinaryOperation) (left right : Expr) (path : Option String)
  | negation (arg : Expr) (path : Option String)
  | fraction (numerator denominator : Expr) (path : Option String)
  | mixed (whole numerator denominator : String) (path : Option String)
  deriving DecidableEq, Repr

namespace Expr

def path : Expr → Option String
  | numeral _ p => p
  | binary _ _ _ p => p
  | negation _ p => p
  | fraction _ _ p => p
  | mixed _ _ _ p => p

/-- The same expression without any path. -/
def bare : Expr → Expr
  | numeral t _ => numeral t none
  | binary o l r _ => binary o l.bare r.bare none
  | negation a _ => negation a.bare none
  | fraction n d _ => fraction n.bare d.bare none
  | mixed w n d _ => mixed w n d none

/-- The nodes in reading order: an operator between its operands, a sign and a
fraction before what they apply to. -/
def nodes : Expr → List Expr
  | numeral t p => [numeral t p]
  | binary o l r p => l.nodes ++ binary o l r p :: r.nodes
  | negation a p => negation a p :: a.nodes
  | fraction n d p => fraction n d p :: (n.nodes ++ d.nodes)
  | mixed w n d p => [mixed w n d p]

/-- Whether every text of a numeral or a mixed number is non-empty. -/
def textsPresent : Expr → Bool
  | numeral t _ => !t.isEmpty
  | binary _ l r _ => l.textsPresent && r.textsPresent
  | negation a _ => a.textsPresent
  | fraction n d _ => n.textsPresent && d.textsPresent
  | mixed w n d _ => !w.isEmpty && !n.isEmpty && !d.isEmpty

end Expr
end FormulaMap

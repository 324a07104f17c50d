/-
Operators: their canonical symbols, their spellings, and how they are typeset.

A registry lists operators in order.  A spelling belongs to the first operator
that claims it, and spellings are compared after white space has been squeezed.
-/
import FormulaMap.Text.Blank

namespace FormulaMap

structure Operator where
  name : String
  symbol : String
  spellings : List String
  precedence : Int
  display : String
  /-- A relation, such as equality, joins no operands into a value. -/
  relation : Bool
  deriving DecidableEq, Repr

namespace Operator

def claims (o : Operator) (spelling : String) : Bool :=
  (o.symbol :: o.spellings).any fun s => Text.squeeze s == spelling

end Operator

abbrev Registry := List Operator

namespace Registry

/-- The operator that a glyph or command stands for. -/
def lookup (r : Registry) (spelling : String) : Option Operator :=
  let s := Text.squeeze spelling
  if s.isEmpty then none else r.find? (·.claims s)

def canonical (r : Registry) (symbol : String) : Option Operator :=
  r.find? (·.symbol == symbol)

/-- The canonical symbols, each once and in increasing order. -/
def symbols (r : Registry) : List String :=
  ((r.map (·.symbol)).eraseDups).mergeSort fun a b => decide (a ≤ b)

/-- The canonical symbol of a spelling; an unknown one is only trimmed. -/
def normalize (r : Registry) (spelling : String) : String :=
  match r.lookup spelling with
  | some o => o.symbol
  | none => Text.trim spelling

def display (r : Registry) (symbol : String) : String :=
  match r.canonical symbol with
  | some o => o.display
  | none => symbol

def precedence (r : Registry) (symbol : String) : Int :=
  match r.canonical symbol with
  | some o => o.precedence
  | none => 0

def standard : Registry :=
  [{ name := "add", symbol := "+", spellings := ["+"],
     precedence := 1, display := "+", relation := false },
   { name := "sub", symbol := "-", spellings := ["-", "−"],
     precedence := 1, display := "-", relation := false },
   { name := "mul", symbol := "*", spellings := ["*", "×", "·", "⋅", "∗", "\\cdot", "\\times"],
     precedence := 2, display := "\\cdot", relation := false },
   { name := "div", symbol := "/", spellings := ["/", ":", "÷", "\\div"],
     precedence := 2, display := "\\div", relation := false },
   { name := "eq", symbol := "=", spellings := ["="],
     precedence := 0, display := "=", relation := true }]

end Registry

/-- The characters that are operators on their own. -/
def operatorChars : List Char :=
  ['+', '-', '−', '*', '×', '·', '⋅', '∗', '/', ':', '÷']

def isOperatorChar (c : Char) : Bool := operatorChars.contains c

/-- The glyphs of a minus sign. -/
def isMinusGlyph (s : String) : Bool := s == "-" || s == "−"

/-- The canonical symbol of a spelling in the standard registry. -/
def normalizeOperator (spelling : String) : String := Registry.standard.normalize spelling

end FormulaMap

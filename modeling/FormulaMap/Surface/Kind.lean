/-
The kinds of surface nodes.
-/

namespace FormulaMap

inductive Kind where
  | root
  | num
  | decimal
  | var
  | binaryOp
  | op
  | minusBinary
  | minusUnary
  | relation
  | parenOpen
  | parenClose
  | fracBar
  | fraction
  | mixedNumber
  | other
  deriving DecidableEq, Repr

namespace Kind

def all : List Kind :=
  [root, num, decimal, var, binaryOp, op, minusBinary, minusUnary, relation, parenOpen, parenClose,
   fracBar, fraction, mixedNumber, other]

def name : Kind → String
  | root => "Root"
  | num => "Num"
  | decimal => "Decimal"
  | var => "Var"
  | binaryOp => "BinaryOp"
  | op => "Op"
  | minusBinary => "MinusBinary"
  | minusUnary => "MinusUnary"
  | relation => "Relation"
  | parenOpen => "ParenOpen"
  | parenClose => "ParenClose"
  | fracBar => "FracBar"
  | fraction => "Fraction"
  | mixedNumber => "MixedNumber"
  | other => "Other"

def ofName? (s : String) : Option Kind := all.find? fun k => k.name == s

/-! ## Families of kinds -/

/-- Nodes of these kinds can be clicked. -/
def isAtomic : Kind → Bool
  | num | var | binaryOp | relation | parenOpen | parenClose | fracBar => true
  | _ => false

def isNumeric : Kind → Bool
  | num | decimal => true
  | _ => false

/-- Numerals and the whole parts of mixed numbers. -/
def isNumber : Kind → Bool
  | num | decimal | mixedNumber => true
  | _ => false

/-- Kinds that are numbered as operators from left to right. -/
def hasSlot : Kind → Bool
  | binaryOp | minusBinary | minusUnary | relation | fraction => true
  | _ => false

/-- Kinds that are paired with the operators of an expression. -/
def isOperator : Kind → Bool
  | binaryOp | minusBinary | minusUnary | relation => true
  | _ => false

/-- A minus sign after a node of such a kind starts an operand. -/
def opensOperand : Kind → Bool
  | binaryOp | op | minusBinary | minusUnary | relation | parenOpen | fracBar => true
  | _ => false

/-- Kinds that an operator can have as an operand. -/
def isOperand : Kind → Bool
  | num | var | fraction | decimal | mixedNumber => true
  | _ => false

/-- Kinds that can be selected together with their operands. -/
def isSelectable : Kind → Bool
  | binaryOp | op | minusBinary => true
  | _ => false

/-- Kinds that a user acts on, and that should be joined to the expression. -/
def isInteractive : Kind → Bool
  | num | decimal | mixedNumber | binaryOp | minusBinary => true
  | _ => false

theorem ofName?_name (k : Kind) : ofName? k.name = some k := by
  cases k <;> decide

end Kind
end FormulaMap

/-
Categories: what an element is, judged by its class names and its text.

The text decides first (numerals, single letters, relations, operator signs),
then the class names of the renderer, then looser readings of the text.  An
element of a structural class only arranges its children.  Text in which digits
and operator signs are run together is no element of its own: it is cut into
segments, each of which has a category.
-/
import FormulaMap.Formula.Operator
import FormulaMap.Formula.Token
import FormulaMap.Surface.Kind
import FormulaMap.Text.Letter

namespace FormulaMap

structure Category where
  kind : Kind
  role : String
  /-- What the identifiers of such nodes start with. -/
  stem : String
  /-- Whether such a node can be clicked whatever becomes of its kind. -/
  atomic : Bool
  deriving DecidableEq, Repr

namespace Category

def num : Category := ⟨.num, "operand", "num", true⟩
def var : Category := ⟨.var, "operand", "var", true⟩
def binaryOp : Category := ⟨.binaryOp, "operator", "op", true⟩
def relation : Category := ⟨.relation, "operator", "rel", true⟩
def parenOpen : Category := ⟨.parenOpen, "decorator", "paren", true⟩
def parenClose : Category := ⟨.parenClose, "decorator", "paren", true⟩
def fracBar : Category := ⟨.fracBar, "decorator", "fracbar", true⟩
def fraction : Category := ⟨.fraction, "operator", "frac", false⟩
def other : Category := ⟨.other, "group", "node", false⟩

/-! ## Readings of a text -/

def hasDigit (cs : List Char) : Bool := cs.any Text.isAsciiDigit

def hasOperatorChar (cs : List Char) : Bool := cs.any isOperatorChar

def hasGreek (cs : List Char) : Bool := cs.any Text.isGreek

def hasAsciiLetter (cs : List Char) : Bool := cs.any Text.isAsciiLetter

/-- Digits, a point, digits. -/
def isDecimal (cs : List Char) : Bool :=
  match cs.dropWhile Text.isAsciiDigit with
  | '.' :: rest => Text.isNumber (cs.takeWhile Text.isAsciiDigit) && Text.isNumber rest
  | _ => false

def isVariable : List Char → Bool
  | [c] => Text.isAsciiLetter c || Text.isGreek c
  | _ => false

def isSign : List Char → Bool
  | [c] => isOperatorChar c
  | _ => false

def isRelation (text : String) : Bool :=
  match Registry.standard.lookup text with
  | some o => o.relation
  | none => false

/-- Whether digits and operator signs stand in one text. -/
def isMixedContent (cs : List Char) : Bool := hasDigit cs && hasOperatorChar cs

/-! ## Elements -/

/-- Classes of elements that only arrange what is in them. -/
def structuralClasses : List String :=
  ["vlist", "vlist-t", "vlist-r", "vbox", "pstrut", "sizing", "fontsize-ensurer", "mspace"]

def isStructural (classes : List String) : Bool :=
  classes.any fun c => structuralClasses.contains c

/-- The category of an element with these classes and this text. -/
def of (classes : List String) (text : String) : Category :=
  let cs := Text.trimChars text.toList
  let t := String.ofList cs
  if Text.isNumber cs || isDecimal cs then num
  else if isVariable cs then var
  else if isRelation t then relation
  else if isSign cs then binaryOp
  else if classes.contains "mbin" then binaryOp
  else if classes.contains "mrel" then relation
  else if ["(", "[", "\x7b"].contains t then parenOpen
  else if [")", "]", "\x7d"].contains t then parenClose
  else if classes.contains "mopen" then parenOpen
  else if classes.contains "mclose" then parenClose
  else if classes.contains "frac-line" then fracBar
  else if classes.contains "mfrac" then fraction
  else if hasGreek cs then var
  else if hasDigit cs && !hasAsciiLetter cs && !hasOperatorChar cs then num
  else other

end Category

/-! ## Segments -/

inductive SegmentKind where
  | num
  | op
  | var
  deriving DecidableEq, Repr

structure Segment where
  kind : SegmentKind
  text : String
  deriving DecidableEq, Repr

namespace SegmentKind

def name : SegmentKind → String
  | num => "num"
  | op => "op"
  | var => "var"

def ofName? (s : String) : Option SegmentKind := [num, op, var].find? fun k => k.name == s

def category : SegmentKind → Category
  | num => .num
  | op => .binaryOp
  | var => .var

end SegmentKind

namespace Segment

/-- The segment of a character that starts no numeral. -/
def ofChar? (c : Char) : Option Segment :=
  if isOperatorChar c then some ⟨.op, String.singleton c⟩
  else if Text.isAsciiLetter c || Text.isGreek c then some ⟨.var, String.singleton c⟩
  else none

/-- Cuts a text into numerals, operator signs and letters, and skips the rest. -/
def scan : List Char → List Segment
  | [] => []
  | c :: cs =>
    if Text.isDigit c then
      ⟨.num, String.ofList (c :: cs.takeWhile Token.isNumeralChar)⟩ ::
        scan (cs.dropWhile Token.isNumeralChar)
    else (ofChar? c).toList ++ scan cs
  termination_by cs => cs.length
  decreasing_by
    · exact Nat.lt_succ_of_le (Token.length_dropWhile_le _ _)
    · exact Nat.lt_succ_self _

def ofString (s : String) : List Segment := scan s.toList

end Segment
end FormulaMap

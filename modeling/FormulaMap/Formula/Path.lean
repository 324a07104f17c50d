/-
Structural paths: the addresses of the nodes of an expression.

The root is `root`.  The operands of a binary operation are `.term[0]` and
`.term[1]` below it, the parts of a fraction `.num` and `.den`, and the argument
of a negation `.arg`; below the root itself the operands of an operation are
written `term[0]` and `term[1]` alone.  A path depends on the shape of the
expression only, so it survives a change of layout.
-/
import FormulaMap.Formula.Expr

namespace FormulaMap

/-- One step from a node to a child. -/
inductive PathStep where
  | left
  | right
  | numerator
  | denominator
  | argument
  deriving DecidableEq, Repr

namespace PathStep

def segment : PathStep → String
  | left => "term[0]"
  | right => "term[1]"
  | numerator => "num"
  | denominator => "den"
  | argument => "arg"

/-- Whether the step leads to an operand of a binary operation. -/
def isTerm : PathStep → Bool
  | left => true
  | right => true
  | _ => false

end PathStep

namespace Path

def root : String := "root"

/-- The path one step below `p`. -/
def child (p : String) (s : PathStep) : String :=
  if s.isTerm && p == root then s.segment else p ++ "." ++ s.segment

/-- The paths of the two operands of the operation at `p`. -/
def operands (p : String) : String × String := (child p .left, child p .right)

/-- A segment that may stand for a step, a line feed after it being ignored when
the segment is an operand. -/
def isTermSegment (cs : List Char) : Bool :=
  let core := if cs.getLast? = some '\n' then cs.dropLast else cs
  core == PathStep.left.segment.toList || core == PathStep.right.segment.toList

def isInnerSegment (cs : List Char) : Bool :=
  cs == PathStep.numerator.segment.toList || cs == PathStep.denominator.segment.toList ||
    cs == PathStep.argument.segment.toList

def isSegment (cs : List Char) : Bool := isInnerSegment cs || isTermSegment cs

/-- Whether a text is well formed as a path.  An operand directly below the root
is written without the root, so `root.term[0]` is none. -/
def isValid (p : String) : Bool :=
  match p.toList.splitOn '.' with
  | [] => false
  | head :: rest =>
    if head = root.toList then
      match rest with
      | [] => true
      | first :: more => isInnerSegment first && more.all isSegment
    else isTermSegment head && rest.all isSegment

end Path

namespace Expr

/-- Assigns every node its path, the node itself being at `p`. -/
def assignFrom (p : String) : Expr → Expr
  | numeral t _ => numeral t (some p)
  | binary o l r _ =>
    binary o (l.assignFrom (Path.child p .left)) (r.assignFrom (Path.child p .right)) (some p)
  | negation a _ => negation (a.assignFrom (Path.child p .argument)) (some p)
  | fraction n d _ =>
    fraction (n.assignFrom (Path.child p .numerator)) (d.assignFrom (Path.child p .denominator))
      (some p)
  | mixed w n d _ => mixed w n d (some p)

def assignPaths (e : Expr) : Expr := e.assignFrom Path.root

/-- The first node, in reading order, that carries a path. -/
def nodeAt? (e : Expr) (p : String) : Option Expr :=
  e.nodes.find? fun n => n.path == some p

end Expr
end FormulaMap

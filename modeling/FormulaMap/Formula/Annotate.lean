/-
Annotating a formula with the paths of its expression.

`Expr.markup` writes an expression as typeset source in which every numeral,
operator sign, fraction and mixed number carries a note with its path and its
role.  Parentheses are added where the source would otherwise read back as
another expression.  A negation is written by its sign alone and carries no
note.
-/
import FormulaMap.Formula.Markup
import FormulaMap.Formula.Parser
import FormulaMap.Formula.Path

namespace FormulaMap

namespace Annotations

/-- What an annotated piece of source is. -/
inductive Role where
  | number
  | operator
  | fraction
  | mixed
  deriving DecidableEq, Repr

def Role.name : Role → String
  | number => "number"
  | operator => "operator"
  | fraction => "fraction"
  | mixed => "mixed"

/-- A path as it may stand in a note: braces and backslashes are dropped. -/
def escapePath (p : Option String) : List Char :=
  (p.getD "").toList.filter fun c => !(c == '{' || c == '}' || c == '\\')

/-- The text of a note. -/
def note (path : Option String) (role : Role) (operator : Option String) : List Char :=
  "ast-id=".toList ++ escapePath path ++ ", role=".toList ++ role.name.toList ++
    match operator with
    | some o => ", operator=".toList ++ o.toList
    | none => []

end Annotations

namespace BinaryOperation

def precedence (o : BinaryOperation) : Int := Registry.standard.precedence o.symbol

/-- The source that typesets the operation's sign. -/
def display (o : BinaryOperation) : String := Registry.standard.display o.symbol

end BinaryOperation

namespace Expr

open Annotations

def parenthesized (m : Markup) : Markup :=
  .seq (.text ['(']) (.seq m (.text [')']))

/-- A left operand keeps its parentheses when it binds less tightly. -/
def leftNeedsParens (op : BinaryOperation) : Expr → Bool
  | binary o _ _ _ => o.precedence < op.precedence
  | _ => false

/-- A right operand keeps its parentheses also when it binds equally tightly. -/
def rightNeedsParens (op : BinaryOperation) : Expr → Bool
  | binary o _ _ _ => o.precedence ≤ op.precedence
  | _ => false

/-- What stands behind a sign keeps its parentheses when the sign would otherwise
apply to a part of it or be folded away. -/
def signNeedsParens : Expr → Bool
  | binary .. => true
  | negation .. => true
  | numeral t _ => t.startsWith "-"
  | _ => false

def wrapIf (b : Bool) (m : Markup) : Markup := if b then parenthesized m else m

def markup : Expr → Markup
  | numeral t p => .annotated (note p .number none) (.ofString t)
  | binary o l r p =>
    .seq (wrapIf (leftNeedsParens o l) l.markup) <| .seq (.text [' ']) <|
      .seq (.annotated (note p .operator (some o.symbol)) (.ofString o.display)) <|
        .seq (.text [' ']) (wrapIf (rightNeedsParens o r) r.markup)
  | fraction n d p =>
    .annotated (note p .fraction none)
      (.seq (.ofString "\\frac") (.seq (.group n.markup) (.group d.markup)))
  | negation a _ => .seq (.text ['-']) (wrapIf (signNeedsParens a) a.markup)
  | mixed w n d p =>
    .annotated (note p .mixed none)
      (.seq (.ofString (w ++ "\\frac")) (.seq (.group (.ofString n)) (.group (.ofString d))))

/-- The annotated source of an expression. -/
def annotated (e : Expr) : String := String.ofList e.markup.render

end Expr

end FormulaMap

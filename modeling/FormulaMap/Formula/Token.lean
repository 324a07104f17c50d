/-
Tokens of a formula.

`Token.scan` cuts a formula into tokens from left to right.  Nothing is refused:
what has no meaning in arithmetic is skipped.  `Token.fuse` then joins a whole
number, a space and a quotient of two numbers into one mixed number and drops
the remaining spaces.
-/
import FormulaMap.Formula.Expr
import FormulaMap.Text.Digit
import FormulaMap.Text.Letter

namespace FormulaMap

inductive TokenKind where
  | number
  | operator
  | fraction
  | openParen
  | closeParen
  | openBrace
  | closeBrace
  | space
  | mixed
  deriving DecidableEq, Repr

structure Token where
  kind : TokenKind
  text : String
  deriving DecidableEq, Repr

namespace Token

def isNumeralChar (c : Char) : Bool := Text.isDigit c || c == '.'

/-- The token of a command name, if it has one. -/
def ofCommand? (name : List Char) : Option Token :=
  match String.ofList name with
  | "frac" => some ⟨.fraction, "\\frac"⟩
  | "cdot" => some ⟨.operator, "*"⟩
  | "times" => some ⟨.operator, "*"⟩
  | "div" => some ⟨.operator, "/"⟩
  | _ => none

def bracket? : Char → Option TokenKind
  | '(' => some .openParen
  | '[' => some .openParen
  | ')' => some .closeParen
  | ']' => some .closeParen
  | '{' => some .openBrace
  | '}' => some .closeBrace
  | _ => none

/-- The token of a character that stands alone. -/
def ofChar? (c : Char) : Option Token :=
  match bracket? c with
  | some k => some ⟨k, String.singleton c⟩
  | none => if isOperatorChar c then some ⟨.operator, String.singleton c⟩ else none

theorem length_dropWhile_le (p : Char → Bool) (cs : List Char) :
    (cs.dropWhile p).length ≤ cs.length :=
  (List.dropWhile_suffix p).length_le

/-- Cuts a formula into tokens.  A backslash without a name after it takes one
more character with it. -/
def scan : List Char → List Token
  | [] => []
  | c :: cs =>
    if Text.isBlank c then
      ⟨.space, String.ofList (c :: cs.takeWhile Text.isBlank)⟩ :: scan (cs.dropWhile Text.isBlank)
    else if Text.isDigit c then
      ⟨.number, String.ofList (c :: cs.takeWhile isNumeralChar)⟩ :: scan (cs.dropWhile isNumeralChar)
    else if c = '\\' then
      let name := cs.takeWhile Text.isLetter
      (ofCommand? name).toList ++
        scan (if name.isEmpty then cs.drop 1 else cs.dropWhile Text.isLetter)
    else (ofChar? c).toList ++ scan cs
  termination_by cs => cs.length
  decreasing_by
    · exact Nat.lt_succ_of_le (length_dropWhile_le _ _)
    · exact Nat.lt_succ_of_le (length_dropWhile_le _ _)
    · split
      · simp only [List.length_drop, List.length_cons]
        omega
      · exact Nat.lt_succ_of_le (length_dropWhile_le _ _)
    · exact Nat.lt_succ_self _

def ofString (s : String) : List Token := scan s.toList

/-- The parts of a mixed number at the start of a list, joined by underscores. -/
def leadingMixed? : List Token → Option String
  | ⟨.number, w⟩ :: ⟨.space, _⟩ :: ⟨.number, n⟩ :: ⟨.operator, o⟩ :: ⟨.number, d⟩ :: _ =>
    if o == "/" then some (w ++ "_" ++ n ++ "_" ++ d) else none
  | _ => none

def fuse : List Token → List Token
  | [] => []
  | t :: ts =>
    match leadingMixed? (t :: ts) with
    | some text => ⟨.mixed, text⟩ :: fuse (ts.drop 4)
    | none => if t.kind = .space then fuse ts else t :: fuse ts
  termination_by ts => ts.length
  decreasing_by
    · simp only [List.length_drop, List.length_cons]
      omega
    · exact Nat.lt_succ_self _
    · exact Nat.lt_succ_self _

/-- The three parts of a mixed number; the number of parts when it is another. -/
def mixedParts (text : String) : Except Nat (String × String × String) :=
  match text.toList.splitOn '_' with
  | [w, n, d] => .ok (String.ofList w, String.ofList n, String.ofList d)
  | parts => .error parts.length

/-- The binary operation that an operator token stands for. -/
def operation? (t : Token) : Option BinaryOperation :=
  if t.kind = .operator then BinaryOperation.ofSymbol? (normalizeOperator t.text) else none

end Token
end FormulaMap

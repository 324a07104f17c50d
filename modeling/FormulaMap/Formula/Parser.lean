/-
Reading an expression from tokens.

A sum is made of products and a product of primaries, both joined from left to
right.  A primary is a numeral, a mixed number, a bracketed sum, a sign before a
primary, or a fraction of two groups; a group is a sum in braces or a primary.
A sign before a numeral without one becomes part of the numeral.  A number
before a fraction of two bare integers makes a mixed number; otherwise the
reader goes back to the fraction and says so.

Each function takes the tokens that are left and returns those that are left
after it, with the proof that there are no more of them than before.  A missing
bracket is noted and tolerated, so the only way to fail is a token whose text
cannot make a node.
-/
import FormulaMap.Formula.Token

namespace FormulaMap

/-- Why a token cannot make a node. -/
inductive NodeFault where
  /-- A mixed number must have three parts. -/
  | partCount (found : Nat)
  /-- A text that must not be empty. -/
  | emptyText (node field : String)
  deriving DecidableEq, Repr

/-- What the reader has to remark on an expression. -/
inductive ParseWarning where
  | missingBracket (bracket : String) (index : Nat)
  | notMixed (whole : String)
  | trailing (index : Nat)
  | noExpression
  | aborted (fault : NodeFault)
  deriving DecidableEq, Repr

namespace Parser

/-- The outcome of a reading step on `ts`. -/
structure Step (ts : List Token) where
  node : Option Expr
  rest : List Token
  warnings : List ParseWarning
  length_le : rest.length ≤ ts.length

/-- The step seen from a list that is at least as long, with earlier warnings. -/
def Step.after {ts us : List Token} (s : Step ts) (warnings : List ParseWarning)
    (h : ts.length ≤ us.length) : Step us :=
  ⟨s.node, s.rest, warnings ++ s.warnings, Nat.le_trans s.length_le h⟩

/-- Takes a closing bracket, or notes the index at which it is missing; `count`
is the number of tokens of the whole expression. -/
def close (count : Nat) (kind : TokenKind) (bracket : String) {ts : List Token} (s : Step ts) :
    Step ts :=
  match h : s.rest with
  | t :: rest =>
    if t.kind = kind then
      ⟨s.node, rest, s.warnings, by have := s.length_le; simp only [h, List.length_cons] at this; omega⟩
    else
      ⟨s.node, s.rest, s.warnings ++ [.missingBracket bracket (count - s.rest.length)], s.length_le⟩
  | [] => ⟨s.node, s.rest, s.warnings ++ [.missingBracket bracket count], s.length_le⟩

/-- The operation at the front and the tokens after it, if it is of the class. -/
def leading? (additive : Bool) : List Token → Option BinaryOperation
  | t :: _ => t.operation?.filter fun o => o.isAdditive == additive
  | [] => none

def join (op : BinaryOperation) : Option Expr → Option Expr → Option Expr
  | some l, some r => some (.binary op l r none)
  | _, _ => none

def numeral (text : String) : Except NodeFault Expr :=
  if text.isEmpty then .error (.emptyText "IntegerNode" "value") else .ok (.numeral text none)

def mixedNumber (whole numerator denominator : String) : Except NodeFault Expr :=
  if whole.isEmpty then .error (.emptyText "MixedNode" "whole")
  else if numerator.isEmpty then .error (.emptyText "MixedNode" "numerator")
  else if denominator.isEmpty then .error (.emptyText "MixedNode" "denominator")
  else .ok (.mixed whole numerator denominator none)

def mixedToken (text : String) : Except NodeFault Expr :=
  match Token.mixedParts text with
  | .ok (w, n, d) => mixedNumber w n d
  | .error found => .error (.partCount found)

/-- A sign before an expression. -/
def negate : Expr → Expr
  | .numeral t p => if t.startsWith "-" then .negation (.numeral t p) none else .numeral ("-" ++ t) none
  | e => .negation e none

/-- The text of a numeral of ASCII digits, a line feed after them being ignored. -/
def bareInteger? : Option Expr → Option String
  | some (.numeral t _) =>
    let cs := t.toList
    if Text.isNumber (if cs.getLast? = some '\n' then cs.dropLast else cs) then some t else none
  | _ => none

def pair : Option Expr → Option Expr → Option Expr
  | some n, some d => some (.fraction n d none)
  | _, _ => none

mutual

def sum (count : Nat) (ts : List Token) : Except NodeFault (Step ts) := do
  let first ← product count ts
  let more ← sumRest count first.node first.rest
  return more.after first.warnings first.length_le
  termination_by 8 * ts.length + 6
  decreasing_by
    · omega
    · have := first.length_le
      omega

/-- The further terms of a sum that starts with `left`. -/
def sumRest (count : Nat) (left : Option Expr) :
    (ts : List Token) → Except NodeFault (Step ts)
  | [] => .ok ⟨left, [], [], Nat.le_refl _⟩
  | t :: rest =>
    match leading? true (t :: rest) with
    | none => .ok ⟨left, t :: rest, [], Nat.le_refl _⟩
    | some op => do
      let right ← product count rest
      match join op left right.node with
      | none => return ⟨none, right.rest, right.warnings, Nat.le_succ_of_le right.length_le⟩
      | some e =>
        let more ← sumRest count (some e) right.rest
        return more.after right.warnings (Nat.le_succ_of_le right.length_le)
  termination_by ts => 8 * ts.length
  decreasing_by
    · simp only [List.length_cons]
      omega
    · have := right.length_le
      simp only [List.length_cons]
      omega

def product (count : Nat) (ts : List Token) : Except NodeFault (Step ts) := do
  let first ← primary count ts
  let more ← productRest count first.node first.rest
  return more.after first.warnings first.length_le
  termination_by 8 * ts.length + 4
  decreasing_by
    · omega
    · have := first.length_le
      omega

/-- The further factors of a product that starts with `left`. -/
def productRest (count : Nat) (left : Option Expr) :
    (ts : List Token) → Except NodeFault (Step ts)
  | [] => .ok ⟨left, [], [], Nat.le_refl _⟩
  | t :: rest =>
    match leading? false (t :: rest) with
    | none => .ok ⟨left, t :: rest, [], Nat.le_refl _⟩
    | some op => do
      let right ← primary count rest
      match join op left right.node with
      | none => return ⟨none, right.rest, right.warnings, Nat.le_succ_of_le right.length_le⟩
      | some e =>
        let more ← productRest count (some e) right.rest
        return more.after right.warnings (Nat.le_succ_of_le right.length_le)
  termination_by ts => 8 * ts.length
  decreasing_by
    · simp only [List.length_cons]
      omega
    · have := right.length_le
      simp only [List.length_cons]
      omega

def primary (count : Nat) : (ts : List Token) → Except NodeFault (Step ts)
  | [] => .ok ⟨none, [], [], Nat.le_refl _⟩
  | t :: rest =>
    match t.kind with
    | .mixed => do return ⟨some (← mixedToken t.text), rest, [], Nat.le_succ _⟩
    | .number =>
      match rest with
      | [] => do return ⟨some (← numeral t.text), [], [], Nat.le_succ _⟩
      | u :: tail =>
        if u.kind = .fraction then do
          let n ← group count tail
          let d ← group count n.rest
          let warnings := n.warnings ++ d.warnings
          match bareInteger? n.node, bareInteger? d.node with
          | some a, some b =>
            return ⟨some (← mixedNumber t.text a b), d.rest, warnings,
              Nat.le_succ_of_le (Nat.le_succ_of_le (Nat.le_trans d.length_le n.length_le))⟩
          | _, _ =>
            return ⟨some (← numeral t.text), u :: tail, warnings ++ [.notMixed t.text], Nat.le_succ _⟩
        else do return ⟨some (← numeral t.text), u :: tail, [], Nat.le_succ _⟩
    | .openParen => do
      let inner ← sum count rest
      return (close count .closeParen ")" inner).after [] (Nat.le_succ _)
    | .operator =>
      if isMinusGlyph t.text then do
        let arg ← primary count rest
        return ⟨arg.node.map negate, arg.rest, arg.warnings, Nat.le_succ_of_le arg.length_le⟩
      else .ok ⟨none, t :: rest, [], Nat.le_refl _⟩
    | .fraction => do
      let n ← group count rest
      let d ← group count n.rest
      return ⟨pair n.node d.node, d.rest, n.warnings ++ d.warnings,
        Nat.le_succ_of_le (Nat.le_trans d.length_le n.length_le)⟩
    | _ => .ok ⟨none, t :: rest, [], Nat.le_refl _⟩
  termination_by ts => 8 * ts.length + 2
  decreasing_by
    all_goals simp only [List.length_cons]
    all_goals first
      | omega
      | have := n.length_le; omega

def group (count : Nat) : (ts : List Token) → Except NodeFault (Step ts)
  | [] => .ok ⟨none, [], [], Nat.le_refl _⟩
  | t :: rest =>
    if t.kind = .openBrace then do
      let inner ← sum count rest
      return (close count .closeBrace "\x7d" inner).after [] (Nat.le_succ _)
    else primary count (t :: rest)
  termination_by ts => 8 * ts.length + 3
  decreasing_by
    all_goals simp only [List.length_cons]
    all_goals omega

end

end Parser

/-- An expression, if the tokens make one, and what there is to remark. -/
structure Parsed where
  expr : Option Expr
  warnings : List ParseWarning
  deriving DecidableEq, Repr

namespace Parsed

def ofStep (count : Nat) {ts : List Token} (s : Parser.Step ts) : Parsed :=
  match s.node with
  | some e => ⟨some e, s.warnings ++ if s.rest.isEmpty then [] else [.trailing (count - s.rest.length)]⟩
  | none => ⟨none, if s.warnings.isEmpty then [.noExpression] else s.warnings⟩

def ofTokens (ts : List Token) : Parsed :=
  match Parser.sum ts.length ts with
  | .ok s => ofStep ts.length s
  | .error f => ⟨none, [.aborted f]⟩

/-- What is said of a formula in which no expression was found. -/
def failed : String := "AST parser failed to parse expression"

/-- Reads a formula. -/
def ofString (s : String) : Parsed := ofTokens (Token.fuse (Token.ofString s))

end Parsed

/-! ## Messages -/

def NodeFault.message : NodeFault → String
  | partCount n =>
    if n < 3 then "not enough values to unpack (expected 3, got " ++ Nat.repr n ++ ")"
    else "too many values to unpack (expected 3)"
  | emptyText node field =>
    "1 validation error for " ++ node ++ "\n" ++ field ++ "\n  String should have at least 1 character"

def ParseWarning.message : ParseWarning → String
  | missingBracket b i => "expected '" ++ b ++ "' near token index " ++ Nat.repr i
  | notMixed w => "fraction after " ++ w ++ " is not a mixed number and was left unparsed"
  | trailing i => "unparsed trailing tokens from index " ++ Nat.repr i
  | noExpression => "could not parse expression"
  | aborted f => "parse failed: " ++ f.message

end FormulaMap

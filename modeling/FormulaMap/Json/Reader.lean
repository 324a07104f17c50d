/-
Reading JSON.

The reader takes the grammar of JSON together with the three words `NaN`,
`Infinity` and `-Infinity`.  It says why and where a text is refused: a position
is kept as the number of characters that are left, and becomes a line and a
column only in the message.  When a key is repeated the last value counts.
-/
import FormulaMap.Json.Basic
import FormulaMap.Number.Numeral

namespace FormulaMap
namespace Json

inductive Refusal where
  | value
  | key
  | colon
  | comma
  | extraData
  | unterminated
  | controlCharacter
  | escape
  | unicodeEscape
  | byteOrderMark
  /-- An integer of this many digits is longer than any that is read. -/
  | longInteger (digits : Nat)
  deriving DecidableEq, Repr

/-- A refusal and the number of characters from its position to the end. -/
structure Fault where
  refusal : Refusal
  left : Nat
  deriving DecidableEq, Repr

def isSpace (c : Char) : Bool := c == ' ' || c == '\t' || c == '\n' || c == '\r'

def skip (cs : List Char) : List Char := cs.dropWhile isSpace

/-! ## Texts -/

def hexValue? (c : Char) : Option Nat :=
  if '0' ≤ c ∧ c ≤ '9' then some (c.toNat - 48)
  else if 'a' ≤ c ∧ c ≤ 'f' then some (c.toNat - 87)
  else if 'A' ≤ c ∧ c ≤ 'F' then some (c.toNat - 55)
  else none

def hexOf? (cs : List Char) : Option Nat :=
  cs.foldl (fun n c => do return 16 * (← n) + (← hexValue? c)) (some 0)

def simpleEscape? : Char → Option Char
  | '"' => some '"'
  | '\\' => some '\\'
  | '/' => some '/'
  | 'b' => some '\x08'
  | 'f' => some '\x0c'
  | 'n' => some '\n'
  | 'r' => some '\r'
  | 't' => some '\t'
  | _ => none

def isHighSurrogate (n : Nat) : Bool := 0xD800 ≤ n && n ≤ 0xDBFF

def isLowSurrogate (n : Nat) : Bool := 0xDC00 ≤ n && n ≤ 0xDFFF

/-- A code point as a character; half of a pair alone is the replacement character. -/
def charOf (n : Nat) : Char :=
  if 0xD800 ≤ n ∧ n ≤ 0xDFFF then '\ufffd' else Char.ofNat n

/-- The four digits of a `\u` escape, and whether a second escape completes a pair. -/
inductive Unit16 where
  | single (c : Char)
  | pair (c : Char)
  | bad (left : Nat)

/-- Reads the escape whose `u` is followed by `cs`. -/
def unit16 (cs : List Char) : Unit16 :=
  if cs.length < 5 then .bad (cs.length + 1)
  else match hexOf? (cs.take 4) with
    | none => .bad (cs.length + 1)
    | some high =>
      let rest := cs.drop 4
      if isHighSurrogate high && 7 ≤ rest.length && rest.take 2 == ['\\', 'u'] then
        match hexOf? ((rest.drop 2).take 4) with
        | none => .bad (rest.length - 1)
        | some low =>
          if isLowSurrogate low then
            .pair (Char.ofNat (0x10000 + (high - 0xD800) * 0x400 + (low - 0xDC00)))
          else .single '\ufffd'
      else .single (charOf high)

/-- The rest of a text, after its opening quotation mark.  `skipped` characters
belong to an escape that has been read already; `start` is the number of
characters from the opening mark on. -/
def textFrom (start : Nat) : Nat → List Char → Except Fault (List Char × List Char)
  | _, [] => .error ⟨.unterminated, start⟩
  | skipped + 1, _ :: cs => textFrom start skipped cs
  | 0, c :: cs =>
    if c = '"' then .ok ([], cs)
    else if c = '\\' then
      match cs with
      | [] => .error ⟨.unterminated, start⟩
      | 'u' :: rest =>
        match unit16 rest with
        | .bad left => .error ⟨.unicodeEscape, left⟩
        | .single d => (textFrom start 5 cs).map fun r => (d :: r.1, r.2)
        | .pair d => (textFrom start 11 cs).map fun r => (d :: r.1, r.2)
      | e :: _ =>
        match simpleEscape? e with
        | some d => (textFrom start 1 cs).map fun r => (d :: r.1, r.2)
        | none => .error ⟨.escape, cs.length + 1⟩
    else if c.toNat < 0x20 then .error ⟨.controlCharacter, cs.length + 1⟩
    else (textFrom start 0 cs).map fun r => (c :: r.1, r.2)

/-- A text whose opening quotation mark stands before `cs`. -/
def text (cs : List Char) : Except Fault (String × List Char) :=
  (textFrom (cs.length + 1) 0 cs).map fun r => (String.ofList r.1, r.2)

/-! ## Numbers -/

def isDigit (c : Char) : Bool := Text.isAsciiDigit c

/-- The integer part: a zero alone, or digits that do not start with zero. -/
def integerPart : List Char → Option (List Char × List Char)
  | '0' :: cs => some (['0'], cs)
  | c :: cs =>
    if isDigit c then some (c :: cs.takeWhile isDigit, cs.dropWhile isDigit) else none
  | [] => none

def fractionPart : List Char → List Char × List Char
  | '.' :: d :: cs =>
    if isDigit d then (d :: cs.takeWhile isDigit, cs.dropWhile isDigit) else ([], '.' :: d :: cs)
  | cs => ([], cs)

def exponentPart (cs : List Char) : Option Int × List Char :=
  match cs with
  | [] => (none, [])
  | c :: rest =>
    if FloatText.isExponentMark c then
      let (negative, body) := FloatText.sign rest
      let ds := body.takeWhile isDigit
      if ds.isEmpty then (none, cs)
      else
        let n : Int := Text.decimalNat ds
        (some (if negative then -n else n), body.dropWhile isDigit)
    else (none, cs)

def number (negative : Bool) (cs : List Char) : Option (Except Nat Json × List Char) :=
  (integerPart cs).map fun (whole, afterWhole) =>
    let (fraction, afterFraction) := fractionPart afterWhole
    let (exponent, rest) := exponentPart afterFraction
    if fraction.isEmpty && exponent.isNone then
      if Numeral.maxDigits < whole.length then (.error whole.length, rest)
      else
        let n : Int := Text.decimalNat whole
        (.ok (int (if negative then -n else n)), rest)
    else
      (.ok (float (Binary64.nearestDecimal negative (Text.decimalNat (whole ++ fraction))
        (exponent.getD 0 - fraction.length))), rest)

/-! ## Values -/

/-- The words a value may be, with what they stand for. -/
def words : List (List Char × Json) :=
  [("null".toList, null), ("true".toList, bool true), ("false".toList, bool false),
   ("NaN".toList, float (0.0 / 0.0)), ("Infinity".toList, float (1.0 / 0.0)),
   ("-Infinity".toList, float (-1.0 / 0.0))]

def word? (cs : List Char) : Option (Json × List Char) :=
  (words.find? fun w => w.1.isPrefixOf cs).map fun w => (w.2, cs.drop w.1.length)

/-- A value that is no text, list or object. -/
def literal (cs : List Char) : Except Fault (Json × List Char) :=
  match word? cs with
  | some r => .ok r
  | none =>
    let (negative, body) := match cs with
      | '-' :: rest => (true, rest)
      | _ => (false, cs)
    match number negative body with
    | some (.ok v, rest) => .ok (v, rest)
    | some (.error digits, _) => .error ⟨.longInteger digits, cs.length⟩
    | none => .error ⟨.value, cs.length⟩

mutual

/-- The value at the start of a text, and what follows it.  Every second step
takes a character, so twice the number of characters is enough fuel. -/
def value : Nat → List Char → Except Fault (Json × List Char)
  | 0, cs => .error ⟨.value, cs.length⟩
  | fuel + 1, cs =>
    match cs with
    | '"' :: rest => (text rest).map fun r => (str r.1, r.2)
    | '[' :: rest =>
      match skip rest with
      | ']' :: tail => .ok (arr [], tail)
      | other => (items fuel other).map fun r => (arr r.1, r.2)
    | '\x7b' :: rest =>
      match skip rest with
      | '\x7d' :: tail => .ok (obj [], tail)
      | other => (members fuel [] other).map fun r => (obj r.1, r.2)
    | other => literal other

def items : Nat → List Char → Except Fault (List Json × List Char)
  | 0, cs => .error ⟨.value, cs.length⟩
  | fuel + 1, cs => do
    let (v, afterValue) ← value fuel cs
    match skip afterValue with
    | ']' :: tail => return ([v], tail)
    | ',' :: tail =>
      let (vs, rest) ← items fuel (skip tail)
      return (v :: vs, rest)
    | other => throw ⟨.comma, other.length⟩

/-- The members of an object after those in `known`. -/
def members : Nat → List (String × Json) → List Char →
    Except Fault (List (String × Json) × List Char)
  | 0, _, cs => .error ⟨.key, cs.length⟩
  | fuel + 1, known, cs =>
    match cs with
    | '"' :: rest => do
      let (k, afterKey) ← text rest
      match skip afterKey with
      | ':' :: tail =>
        let (v, afterValue) ← value fuel (skip tail)
        match skip afterValue with
        | '\x7d' :: tail => return (Fields.put k v known, tail)
        | ',' :: tail => members fuel (Fields.put k v known) (skip tail)
        | other => throw ⟨.comma, other.length⟩
      | other => throw ⟨.colon, other.length⟩
    | other => throw ⟨.key, other.length⟩

end

def readChars (cs : List Char) : Except Fault Json := do
  if cs.head? = some '\ufeff' then throw ⟨.byteOrderMark, cs.length⟩
  let (v, rest) ← value (2 * cs.length + 2) (skip cs)
  match skip rest with
  | [] => return v
  | other => throw ⟨.extraData, other.length⟩

def read (s : String) : Except Fault Json := readChars s.toList

/-! ## Messages -/

def Refusal.message : Refusal → String
  | value => "Expecting value"
  | key => "Expecting property name enclosed in double quotes"
  | colon => "Expecting ':' delimiter"
  | comma => "Expecting ',' delimiter"
  | extraData => "Extra data"
  | unterminated => "Unterminated string starting at"
  | controlCharacter => "Invalid control character at"
  | escape => "Invalid \\escape"
  | unicodeEscape => "Invalid \\uXXXX escape"
  | byteOrderMark => "Unexpected UTF-8 BOM (decode using utf-8-sig)"
  | longInteger n =>
    "Exceeds the limit (4300 digits) for integer string conversion: value has " ++ Nat.repr n ++
      " digits; use sys.set_int_max_str_digits() to increase the limit"

/-- The message for a fault in `s`, with the line, the column and the position. -/
def Fault.message (s : String) (f : Fault) : String :=
  match f.refusal with
  | .longInteger _ => f.refusal.message
  | _ =>
    let position := s.length - f.left
    let before := s.toList.take position
    let line := before.count '\n' + 1
    let column := (before.reverse.takeWhile (· ≠ '\n')).length + 1
    f.refusal.message ++ ": line " ++ Nat.repr line ++ " column " ++ Nat.repr column ++
      " (char " ++ Nat.repr position ++ ")"

end Json
end FormulaMap

/-
Writing JSON.

Characters outside ASCII are written as they are; only the quotation mark, the
backslash and the control characters are escaped.  A `Layout` says what stands
between items, after keys, and around the members of a value that is spread over
lines.
-/
import FormulaMap.Json.Basic
import FormulaMap.Number.FloatText

namespace FormulaMap
namespace Json

/-! ## Texts -/

def escaped (c : Char) : List Char :=
  if c = '"' then ['\\', '"']
  else if c = '\\' then ['\\', '\\']
  else if c = '\n' then ['\\', 'n']
  else if c = '\r' then ['\\', 'r']
  else if c = '\t' then ['\\', 't']
  else if c = '\x08' then ['\\', 'b']
  else if c = '\x0c' then ['\\', 'f']
  else if c.toNat < 0x20 then
    ['\\', 'u', '0', '0', Nat.digitChar (c.toNat / 16), Nat.digitChar (c.toNat % 16)]
  else [c]

def textChars (s : String) : List Char := '"' :: s.toList.flatMap escaped ++ ['"']

/-! ## Values on one line -/

/-- What is written between two items and between a key and its value. -/
structure Separators where
  comma : List Char
  colon : List Char

def tight : Separators := ⟨[','], [':']⟩

def spaced : Separators := ⟨[',', ' '], [':', ' ']⟩

def intChars (i : Int) : List Char :=
  if i < 0 then '-' :: (Nat.repr i.natAbs).toList else (Nat.repr i.natAbs).toList

def scalar : Json → List Char
  | null => "null".toList
  | bool true => "true".toList
  | bool false => "false".toList
  | int i => intChars i
  | float x => (FloatText.write x).toList
  | str s => textChars s
  | arr _ => "[]".toList
  | obj _ => "\x7b\x7d".toList

mutual

def chars (sep : Separators) : Json → List Char
  | arr xs => '[' :: itemChars sep xs ++ [']']
  | obj fs => '\x7b' :: fieldChars sep fs ++ ['\x7d']
  | v => scalar v

def itemChars (sep : Separators) : List Json → List Char
  | [] => []
  | [x] => chars sep x
  | x :: y :: xs => chars sep x ++ sep.comma ++ itemChars sep (y :: xs)

def fieldChars (sep : Separators) : List (String × Json) → List Char
  | [] => []
  | [(k, v)] => textChars k ++ sep.colon ++ chars sep v
  | (k, v) :: f :: fs =>
    textChars k ++ sep.colon ++ chars sep v ++ sep.comma ++ fieldChars sep (f :: fs)

end

def write (sep : Separators) (v : Json) : String := String.ofList (chars sep v)

/-! ## Values over several lines -/

/-- A line feed and two spaces for each level. -/
def newLine (depth : Nat) : List Char := '\n' :: List.replicate (2 * depth) ' '

mutual

def indented (depth : Nat) : Json → List Char
  | arr [] => scalar (arr [])
  | obj [] => scalar (obj [])
  | arr (x :: xs) => '[' :: indentedItems (depth + 1) (x :: xs) ++ newLine depth ++ [']']
  | obj (f :: fs) => '\x7b' :: indentedFields (depth + 1) (f :: fs) ++ newLine depth ++ ['\x7d']
  | v => scalar v

def indentedItems (depth : Nat) : List Json → List Char
  | [] => []
  | [x] => newLine depth ++ indented depth x
  | x :: y :: xs => newLine depth ++ indented depth x ++ [','] ++ indentedItems depth (y :: xs)

def indentedFields (depth : Nat) : List (String × Json) → List Char
  | [] => []
  | [(k, v)] => newLine depth ++ textChars k ++ [':', ' '] ++ indented depth v
  | (k, v) :: f :: fs =>
    newLine depth ++ textChars k ++ [':', ' '] ++ indented depth v ++ [','] ++
      indentedFields depth (f :: fs)

end

def pretty (v : Json) : String := String.ofList (indented 0 v)

end Json
end FormulaMap

/-
Natural numbers in base 36, with the digits `0` to `9` and `a` to `z`.
-/

namespace FormulaMap
namespace Base36

def digit (d : Nat) : Char := Char.ofNat (if d < 10 then 48 + d else 87 + d)

def chars (n : Nat) : List Char :=
  if n < 36 then [digit n] else chars (n / 36) ++ [digit (n % 36)]
  termination_by n
  decreasing_by omega

def text (n : Nat) : String := String.ofList (chars n)

end Base36
end FormulaMap

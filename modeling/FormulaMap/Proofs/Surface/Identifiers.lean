/-
Identifiers tell nodes apart.

The identifier of a node ends in a dash and its number in base 36.  A number in base
36 is read back by Horner's rule, most significant digit first (`value_chars`), and
none of its digits is a dash.  So the last dash of an identifier is the one before the
number, whatever the stem in front of it, and the number can be told from the
identifier (`number_eq_of_idOf_eq`).
-/
import FormulaMap.Surface.Node
import Mathlib.Logic.Function.Basic

namespace FormulaMap

namespace Base36

/-- What a digit stands for; other characters have a value of no meaning. -/
def digitValue (c : Char) : Nat := if c.toNat < 58 then c.toNat - 48 else c.toNat - 87

def value (cs : List Char) : Nat := cs.foldl (fun n c => 36 * n + digitValue c) 0

theorem digitValue_digit {d : Nat} (h : d < 36) : digitValue (digit d) = d := by
  have hall : ∀ e ∈ List.range 36, digitValue (digit e) = e := by decide
  exact hall d (List.mem_range.2 h)

theorem digit_ne_dash {d : Nat} (h : d < 36) : digit d ≠ '-' := by
  have hall : ∀ e ∈ List.range 36, digit e ≠ '-' := by decide
  exact hall d (List.mem_range.2 h)

theorem value_append_singleton (cs : List Char) (c : Char) :
    value (cs ++ [c]) = 36 * value cs + digitValue c := by
  rw [value, List.foldl_append, List.foldl_cons, List.foldl_nil, value]

theorem value_chars (n : Nat) : value (chars n) = n := by
  induction n using chars.induct with
  | case1 n hn =>
    rw [chars, if_pos hn]
    show 36 * 0 + digitValue (digit n) = n
    rw [digitValue_digit hn, Nat.mul_zero, Nat.zero_add]
  | case2 n hn ih =>
    rw [chars, if_neg hn, value_append_singleton, ih, digitValue_digit (Nat.mod_lt n (by decide)),
      Nat.div_add_mod]

theorem chars_injective : Function.Injective chars :=
  Function.LeftInverse.injective value_chars

theorem dash_notMem_chars (n : Nat) : '-' ∉ chars n := by
  induction n using chars.induct with
  | case1 n hn =>
    rw [chars, if_pos hn, List.mem_singleton]
    exact (digit_ne_dash hn).symm
  | case2 n hn ih =>
    rw [chars, if_neg hn, List.mem_append, List.mem_singleton, not_or]
    exact ⟨ih, (digit_ne_dash (Nat.mod_lt n (by decide))).symm⟩

end Base36

namespace Node

variable {α : Type}

theorem toList_idOf (stem : String) (k : Nat) :
    (idOf stem k).toList = stem.toList ++ '-' :: Base36.chars k := by
  simp [idOf, Base36.text]

/-- What stands behind the last dash is the number. -/
theorem takeWhile_reverse_idOf (stem : String) (k : Nat) :
    (idOf stem k).toList.reverse.takeWhile (· != '-') = (Base36.chars k).reverse := by
  have hdigits : ∀ c ∈ (Base36.chars k).reverse, (c != '-') = true := by
    intro c hc
    rw [bne_iff_ne]
    rintro rfl
    exact Base36.dash_notMem_chars k (List.mem_reverse.1 hc)
  rw [toList_idOf, List.reverse_append, List.reverse_cons, List.append_assoc,
    List.takeWhile_append_of_pos hdigits]
  exact List.append_nil _

theorem number_eq_of_idOf_eq {s t : String} {k l : Nat} (h : idOf s k = idOf t l) : k = l := by
  have hchars : (Base36.chars k).reverse = (Base36.chars l).reverse := by
    rw [← takeWhile_reverse_idOf s k, h, takeWhile_reverse_idOf]
  exact Base36.chars_injective (List.reverse_inj.1 hchars)

theorem dash_mem_idOf (stem : String) (k : Nat) : '-' ∈ (idOf stem k).toList := by
  rw [toList_idOf]
  exact List.mem_append_right _ List.mem_cons_self

theorem idOf_ne_root (stem : String) (k : Nat) : idOf stem k ≠ "root" := by
  intro h
  have hdash := dash_mem_idOf stem k
  rw [h] at hdash
  exact absurd hdash (by decide)

theorem idOf_ne_empty (stem : String) (k : Nat) : idOf stem k ≠ "" := by
  intro h
  have hdash := dash_mem_idOf stem k
  rw [h] at hdash
  exact absurd hdash (by decide)

end Node
end FormulaMap

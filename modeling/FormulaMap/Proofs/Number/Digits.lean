/-
Natural numbers as numerals.

A number is written, and a run of digits read, when it has at most `maxDigits` digits.  The
text of a rational is that of its numerator and denominator, so there is one exactly when
both are short enough (`isSome_text?_iff`).  A run of digits is read as the number that it
writes, so a number with a text is read back from it (`rational?_repr`).
-/
import FormulaMap.Proofs.Json.Scalars
import FormulaMap.Proofs.Number.Quotients
import Mathlib.Algebra.Field.Rat
import Mathlib.Data.Nat.Cast.Basic
import Mathlib.Data.Rat.Lemmas

namespace FormulaMap
namespace Numeral

/-! ## Writing -/

/-- Neither part of the fraction has more digits than are converted. -/
structure Writable (q : Rat) : Prop where
  num : q.num.natAbs < 10 ^ maxDigits
  den : q.den < 10 ^ maxDigits

theorem length_repr_le_maxDigits_iff {n : Nat} :
    (Nat.repr n).length ≤ maxDigits ↔ n < 10 ^ maxDigits :=
  Nat.length_repr_le_iff (by decide)

theorem isSome_integerText?_iff {i : Int} :
    (integerText? i).isSome = true ↔ i.natAbs < 10 ^ maxDigits := by
  rw [← length_repr_le_maxDigits_iff, ← Nat.not_lt, integerText?]
  split
  · next h => simp [h]
  · next h => simp [h]

/-- A denominator of one is not written, and it could be. -/
theorem isSome_text?_iff {q : Rat} : (text? q).isSome = true ↔ Writable q := by
  have hden := isSome_integerText?_iff (i := q.den)
  rw [Int.natAbs_natCast] at hden
  have hparts : (text? q).isSome = true ↔
      (integerText? q.num).isSome = true ∧ (integerText? q.den).isSome = true := by
    rw [text?]
    cases integerText? q.num with
    | none => simp
    | some n =>
      by_cases hone : q.den = 1
      · have hwritten : (integerText? 1).isSome = true := by decide +kernel
        simp [hone, hwritten]
      · cases integerText? q.den <;> simp [hone]
  rw [hparts, isSome_integerText?_iff, hden]
  exact ⟨fun h => ⟨h.1, h.2⟩, fun h => ⟨h.num, h.den⟩⟩

/-! ## Reading -/

variable {ds : List Char}

theorem isDecimal_of_isDigit {c : Char} (h : c.isDigit = true) : Text.isDecimal c = true :=
  (CharSet.has_iff _ _).2 ⟨(48, 57), by decide, Char.isDigit_iff_toNat.1 h⟩

theorem grouped_of_digits (h : ∀ c ∈ ds, c.isDigit = true) : grouped ds = (ds, []) := by
  induction ds with
  | nil => rfl
  | cons d ds ih =>
    rw [List.forall_mem_cons] at h
    rw [grouped, if_pos (isDecimal_of_isDigit h.1), ih h.2]

theorem run_of_digits (h : ∀ c ∈ ds, c.isDigit = true) : run ds = (ds, []) := by
  rw [run]
  cases ds.length with
  | zero => exact grouped_of_digits h
  | succ n =>
    rw [groups, grouped_of_digits h]
    cases ds <;> rfl

theorem assemble_of_digits (h : ds.length ≤ maxDigits) :
    assemble false ds [] 0 = some (Text.decimalNat ds : Rat) := by
  have hwhole : natOf? ds = some (Text.decimalNat ds) := by
    rw [natOf?, if_neg (Nat.not_lt.2 h)]
  have hfraction : natOf? [] = some 0 := if_neg (Nat.not_lt_zero maxDigits)
  have hcast : mkRat (Text.decimalNat ds : Int) 1 = (Text.decimalNat ds : Rat) := by
    rw [Rat.mkRat_one, Int.cast_natCast]
  simp [assemble, hwhole, hfraction, hcast]

theorem decimal?_of_digits (hne : ds ≠ []) (h : ∀ c ∈ ds, c.isDigit = true)
    (hlength : ds.length ≤ maxDigits) : decimal? ds = some (Text.decimalNat ds : Rat) := by
  have hrun := run_of_digits h
  have hvalue := assemble_of_digits hlength
  cases ds with
  | nil => exact absurd rfl hne
  | cons d ds =>
    have hd : d.isDigit = true := h d List.mem_cons_self
    have hblank : Text.isBlank d = false :=
      Text.isBlank_of_isDigit (Text.isDigit_of_isAsciiDigit (Text.isAsciiDigit_of_isDigit hd))
    have hsign : FloatText.sign (d :: ds) = (false, d :: ds) := by
      rw [FloatText.sign.eq_def]
      split
      · next heq => cases heq; cases hd
      · next heq => cases heq; cases hd
      · rfl
    have hdrop : (d :: ds).dropWhile Text.isBlank = d :: ds := by
      rw [List.dropWhile_cons, hblank, if_neg Bool.false_ne_true]
    rw [← hvalue, decimal?, hdrop, hsign]
    dsimp only
    rw [hrun]
    rfl

/-- A number of at most `maxDigits` digits is read from its text. -/
theorem rational?_repr {n : Nat} (h : n < 10 ^ maxDigits) :
    rational? (Nat.repr n) = .ok (some (n : Rat)) := by
  have hdigits : ∀ c ∈ (Nat.repr n).toList, c.isDigit = true := fun _ => Json.isDigit_of_mem_repr
  have hfree : ∀ c : Char, c.isDigit = false → c ∉ (Nat.repr n).toList := by
    intro c hc hmem
    exact Bool.false_ne_true (hc.symm.trans (hdigits c hmem))
  have hne : (Nat.repr n).toList ≠ [] := by
    rw [Nat.toList_repr]
    exact Nat.toDigits_ne_nil
  have hlength : (Nat.repr n).toList.length ≤ maxDigits := length_repr_le_maxDigits_iff.2 h
  have hspaces : (Nat.repr n).toList.filter (· ≠ ' ') = (Nat.repr n).toList := by
    refine List.filter_eq_self.2 fun c hc => ?_
    rw [decide_eq_true_eq]
    rintro rfl
    exact hfree ' ' (by decide) hc
  rw [rational?, read, hspaces, List.splitOn_eq_singleton (hfree '/' (by decide))]
  simp only [decimal?_of_digits hne hdigits hlength, Text.decimalNat_repr]

end Numeral
end FormulaMap

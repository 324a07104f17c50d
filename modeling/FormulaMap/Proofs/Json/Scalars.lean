/-
Texts and integers are read back as they were written.

Each lemma has what is read in front of a rest.  A text ends with its quotation mark,
whatever the rest is; an integer ends where the rest starts, so the rest must not go on
like a number (`continuesNumber`).
-/
import FormulaMap.Json.Reader
import FormulaMap.Proofs.Formula.Lexing
import FormulaMap.Proofs.Json.Characters
import Mathlib.Data.List.Basic

namespace FormulaMap

open Token (Delimits)

/-! ## Decimal digits -/

namespace Text

theorem isAsciiDigit_of_isDigit {c : Char} (h : c.isDigit = true) : isAsciiDigit c = true := by
  rw [Char.isDigit_iff_toNat] at h
  rw [isAsciiDigit, Bool.and_eq_true, decide_eq_true_eq, decide_eq_true_eq]
  exact h

theorem decimalValue?_of_isDigit {c : Char} (h : c.isDigit = true) :
    decimalValue? c = some (c.toNat - '0'.toNat) := by
  obtain ⟨hlow, hhigh⟩ := Char.isDigit_iff_toNat.1 h
  change 48 ≤ c.toNat at hlow
  change c.toNat ≤ 57 at hhigh
  have hfind : (decimalDigits.find? fun r => Nat.ble r.1 c.toNat && Nat.ble c.toNat r.2) =
      some (48, 57) := by
    rw [decimalDigits, List.find?_cons_of_pos]
    simp [Nat.ble_eq, hlow, hhigh]
  rw [decimalValue?, hfind, Option.map_some]
  exact congrArg some (Nat.mod_eq_of_lt (by omega))

theorem decimalNat_eq {cs : List Char} (h : ∀ c ∈ cs, c.isDigit = true) :
    decimalNat cs = Nat.ofDigitChars 10 cs 0 := by
  refine List.foldl_ext _ _ _ fun n c hc => ?_
  rw [decimalValue?_of_isDigit (h c hc), Option.getD_some]

theorem decimalNat_repr (n : Nat) : decimalNat (Nat.repr n).toList = n := by
  rw [decimalNat_eq fun _ => Json.isDigit_of_mem_repr, Nat.toList_repr,
    Nat.ofDigitChars_toDigits (by decide) (by decide)]

/-- Only zero is written with a leading zero. -/
theorem toDigits_eq_cons {n : Nat} (hn : 0 < n) :
    ∃ c cs, Nat.toDigits 10 n = c :: cs ∧ c ≠ '0' := by
  induction n using Nat.strongRecOn with
  | ind n ih =>
    have hdigit : ∀ d < 10, 0 < d → Nat.digitChar d ≠ '0' := by decide
    rw [Nat.toDigits_eq_if (by decide)]
    split
    · next hlt => exact ⟨_, [], rfl, hdigit n hlt hn⟩
    · next hge =>
      obtain ⟨c, cs, heq, hc⟩ := ih (n / 10) (by omega) (by omega)
      exact ⟨c, cs ++ [Nat.digitChar (n % 10)], by rw [heq, List.cons_append], hc⟩

end Text

namespace Json

/-! ## Texts -/

theorem hexOf?_control :
    ∀ n < 32, hexOf? ['0', '0', Nat.digitChar (n / 16), Nat.digitChar (n % 16)] = some n := by
  decide

theorem unit16_control {n : Nat} (hn : n < 32) {rest : List Char} (hrest : rest ≠ []) :
    unit16 ('0' :: '0' :: Nat.digitChar (n / 16) :: Nat.digitChar (n % 16) :: rest) =
      .single (Char.ofNat n) := by
  have hlength := List.length_pos_iff.2 hrest
  have hhigh : isHighSurrogate n = false := by
    rw [isHighSurrogate, Bool.and_eq_false_iff, decide_eq_false_iff_not]
    exact .inl (by omega)
  have hchar : charOf n = Char.ofNat n := by
    rw [charOf, if_neg]
    omega
  rw [unit16, if_neg (by simp only [List.length_cons]; omega)]
  simp only [List.take_succ_cons, List.take_zero, hexOf?_control n hn, hhigh, Bool.false_and,
    Bool.false_eq_true, if_false, hchar]

theorem textFrom_unit16 (start : Nat) {a b c d e : Char} {rest : List Char}
    (h : unit16 (a :: b :: c :: d :: rest) = .single e) :
    textFrom start 0 ('\\' :: 'u' :: a :: b :: c :: d :: rest) =
      (textFrom start 0 rest).map fun r => (e :: r.1, r.2) := by
  have hskip : textFrom start 5 ('u' :: a :: b :: c :: d :: rest) = textFrom start 0 rest := rfl
  rw [← hskip, textFrom.eq_def]
  dsimp only
  rw [if_neg (by decide), if_pos rfl]
  simp only [h]

/-- Whatever a character is written as, it is read from there. -/
theorem textFrom_escaped (start : Nat) (c : Char) {rest : List Char} (hrest : rest ≠ []) :
    textFrom start 0 (escaped c ++ rest) =
      (textFrom start 0 rest).map fun r => (c :: r.1, r.2) := by
  unfold escaped
  split
  · next h => rw [h]; rfl
  split
  · next h => rw [h]; rfl
  split
  · next h => rw [h]; rfl
  split
  · next h => rw [h]; rfl
  split
  · next h => rw [h]; rfl
  split
  · next h => rw [h]; rfl
  split
  · next h => rw [h]; rfl
  split
  · next hcontrol =>
    have hunit := unit16_control hcontrol hrest
    rw [Char.ofNat_toNat] at hunit
    exact textFrom_unit16 start hunit
  · next hquote hslash _ _ _ _ _ hcontrol =>
    rw [List.singleton_append, textFrom.eq_def]
    dsimp only
    rw [if_neg hquote, if_neg hslash, if_neg hcontrol]

theorem textFrom_written (start : Nat) (cs rest : List Char) :
    textFrom start 0 (cs.flatMap escaped ++ '"' :: rest) = .ok (cs, rest) := by
  induction cs with
  | nil => rfl
  | cons c cs ih =>
    rw [List.flatMap_cons, List.append_assoc, textFrom_escaped start c (by simp), ih]
    rfl

theorem text_written (s : String) (rest : List Char) :
    text (s.toList.flatMap escaped ++ '"' :: rest) = .ok (s, rest) := by
  rw [text, textFrom_written]
  simp [Except.map]

/-! ## Integers -/

/-- The integer has no more digits than are converted. -/
def IsShort (i : Int) : Prop := (Numeral.integerText? i).isSome = true

instance : DecidablePred IsShort := fun i =>
  inferInstanceAs (Decidable ((Numeral.integerText? i).isSome = true))

theorem length_repr_of_isShort {i : Int} (h : IsShort i) :
    (Nat.repr i.natAbs).toList.length ≤ Numeral.maxDigits := by
  rw [IsShort, Numeral.integerText?] at h
  split at h
  · exact absurd h (by decide)
  · next hle => exact Nat.not_lt.1 hle

/-- The characters that would make a number longer. -/
def continuesNumber (c : Char) : Bool :=
  isDigit c || c == '.' || FloatText.isExponentMark c

theorem delimits_isDigit {rest : List Char} (h : Delimits continuesNumber rest) :
    Delimits isDigit rest := by
  intro c cs heq
  have hc := h c cs heq
  rw [continuesNumber, Bool.or_eq_false_iff, Bool.or_eq_false_iff] at hc
  exact hc.1.1

theorem integerPart_repr (n : Nat) {rest : List Char} (hrest : Delimits continuesNumber rest) :
    integerPart ((Nat.repr n).toList ++ rest) = some ((Nat.repr n).toList, rest) := by
  have hall : ∀ c ∈ (Nat.repr n).toList, isDigit c = true :=
    fun c hc => Text.isAsciiDigit_of_isDigit (isDigit_of_mem_repr hc)
  rcases Nat.eq_zero_or_pos n with rfl | hn
  · rfl
  · obtain ⟨c, cs, heq, hc⟩ := Text.toDigits_eq_cons hn
    rw [Nat.toList_repr, heq] at hall ⊢
    have hcs : cs.all isDigit = true :=
      List.all_eq_true.2 fun d hd => hall d (List.mem_cons_of_mem _ hd)
    rw [List.cons_append, integerPart, if_pos (hall c List.mem_cons_self),
      Token.takeWhile_append_of_delimits hcs (delimits_isDigit hrest),
      Token.dropWhile_append_of_delimits hcs (delimits_isDigit hrest)]
    exact hc

theorem fractionPart_of_delimits {rest : List Char} (hrest : Delimits continuesNumber rest) :
    fractionPart rest = ([], rest) := by
  unfold fractionPart
  split
  · exact absurd (hrest _ _ rfl) (by decide)
  · rfl

theorem exponentPart_of_delimits {rest : List Char} (hrest : Delimits continuesNumber rest) :
    exponentPart rest = (none, rest) := by
  unfold exponentPart
  split
  · rfl
  · next c cs =>
    have hc := hrest c cs rfl
    rw [continuesNumber, Bool.or_eq_false_iff] at hc
    rw [if_neg]
    rw [hc.2]
    exact Bool.false_ne_true

theorem number_repr (negative : Bool) {n : Nat}
    (hn : (Nat.repr n).toList.length ≤ Numeral.maxDigits) {rest : List Char}
    (hrest : Delimits continuesNumber rest) :
    number negative ((Nat.repr n).toList ++ rest) =
      some (.ok (int (if negative then -n else n)), rest) := by
  rw [number, integerPart_repr n hrest, Option.map_some]
  simp only [fractionPart_of_delimits hrest, exponentPart_of_delimits hrest,
    List.isEmpty_nil, Option.isNone_none, Bool.and_self, if_true, if_neg (Nat.not_lt.2 hn),
    Text.decimalNat_repr]

end Json
end FormulaMap

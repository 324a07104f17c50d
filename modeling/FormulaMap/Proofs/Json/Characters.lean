/-
The characters of a JSON value that is written on one line.

Control characters are escaped, so none is among them.  Beyond ASCII nothing is escaped
and nothing is added, so there the characters are those of the texts and keys of the
value (`mem_chars_iff`).
-/
import FormulaMap.Json.Writer
import FormulaMap.Proofs.Text.Words
import FormulaMap.Text.Quoted
import Mathlib.Logic.Basic

namespace FormulaMap
namespace Json

/-! ## Plain values -/

/-- Values made of truth values, integers, texts, lists and objects in which no key
occurs twice. -/
inductive Plain : Json → Prop
  | null : Plain null
  | bool (b : Bool) : Plain (bool b)
  | int (i : Int) : Plain (int i)
  | str (s : String) : Plain (str s)
  | arr {xs : List Json} : (∀ x ∈ xs, Plain x) → Plain (arr xs)
  | obj {fs : List (String × Json)} : (fs.map (·.1)).Nodup → (∀ f ∈ fs, Plain f.2) →
      Plain (obj fs)

mutual

/-- The texts and the keys in a value. -/
def texts : Json → List String
  | str s => [s]
  | arr xs => itemTexts xs
  | obj fs => fieldTexts fs
  | _ => []

def itemTexts : List Json → List String
  | [] => []
  | x :: xs => texts x ++ itemTexts xs

def fieldTexts : List (String × Json) → List String
  | [] => []
  | (k, v) :: fs => k :: (texts v ++ fieldTexts fs)

end

section
variable {xs : List Json} {fs : List (String × Json)}

theorem mem_itemTexts {s : String} : s ∈ itemTexts xs ↔ ∃ x ∈ xs, s ∈ texts x := by
  induction xs with
  | nil => simp [itemTexts]
  | cons x xs ih => simp [itemTexts, ih]

theorem mem_fieldTexts {s : String} :
    s ∈ fieldTexts fs ↔ ∃ f ∈ fs, s = f.1 ∨ s ∈ texts f.2 := by
  induction fs with
  | nil => simp [fieldTexts]
  | cons f fs ih => simp [fieldTexts, ih, or_assoc]

theorem mem_itemIntegers {i : Int} : i ∈ itemIntegers xs ↔ ∃ x ∈ xs, i ∈ integers x := by
  induction xs with
  | nil => simp [itemIntegers]
  | cons x xs ih => simp [itemIntegers, ih]

theorem mem_fieldIntegers {i : Int} :
    i ∈ fieldIntegers fs ↔ ∃ f ∈ fs, i ∈ integers f.2 := by
  induction fs with
  | nil => simp [fieldIntegers]
  | cons f fs ih => simp [fieldIntegers, ih]

end

/-! ## Lists and objects on one line -/

theorem itemChars_eq (sep : Separators) (xs : List Json) :
    itemChars sep xs = sep.comma.intercalate (xs.map (chars sep)) := by
  induction xs with
  | nil => rfl
  | cons x xs ih =>
    cases xs with
    | nil => rw [itemChars, List.map_singleton, List.intercalate_singleton]
    | cons y xs =>
      rw [itemChars, ih, List.map_cons, List.map_cons, List.map_cons,
        List.intercalate_cons_cons]

/-- A field as it is written: its key, and its value behind a colon. -/
def oneField (sep : Separators) (f : String × Json) : List Char :=
  textChars f.1 ++ sep.colon ++ chars sep f.2

theorem fieldChars_eq (sep : Separators) (fs : List (String × Json)) :
    fieldChars sep fs = sep.comma.intercalate (fs.map (oneField sep)) := by
  induction fs with
  | nil => rfl
  | cons f fs ih =>
    cases fs with
    | nil => rw [fieldChars, List.map_singleton, List.intercalate_singleton, oneField]
    | cons g fs =>
      rw [fieldChars, ih, List.map_cons, List.map_cons, List.map_cons,
        List.intercalate_cons_cons]
      rfl

/-! ## Characters of texts -/

/-- ASCII from the space on; delete, the last of it, is not escaped either. -/
def isPrintable (c : Char) : Bool := 0x20 ≤ c.toNat && c.toNat ≤ 0x7f

theorem le_of_isPrintable {c : Char} (h : isPrintable c = true) :
    0x20 ≤ c.toNat ∧ c.toNat ≤ 0x7f := by
  rw [isPrintable, Bool.and_eq_true, decide_eq_true_eq, decide_eq_true_eq] at h
  exact h

theorem ne_of_isPrintable {c d : Char} (hc : 0x7f < c.toNat) (hd : isPrintable d = true) :
    c ≠ d := by
  rintro rfl
  have := (le_of_isPrintable hd).2
  omega

theorem isPrintable_digitChar : ∀ n < 16, isPrintable (Nat.digitChar n) = true := by
  decide

theorem all_hex (width n : Nat) : (Text.hex width n).all isPrintable = true := by
  refine List.all_eq_true.2 fun c hc => ?_
  obtain ⟨i, -, rfl⟩ := List.mem_map.1 hc
  exact isPrintable_digitChar _ (Nat.mod_lt _ (by decide))

/-- A character stands for itself, or is one of ASCII and is escaped in ASCII. -/
theorem escaped_cases (c : Char) :
    (escaped c = [c] ∧ 0x20 ≤ c.toNat) ∨
      ((escaped c).all isPrintable = true ∧ c.toNat ≤ 0x7f) := by
  by_cases hquote : c = '"'
  · subst hquote
    exact .inr (by decide)
  by_cases hslash : c = '\\'
  · subst hslash
    exact .inr (by decide)
  by_cases hcontrol : c.toNat < 0x20
  · have hhigh := isPrintable_digitChar (c.toNat / 16) (by omega)
    have hlow := isPrintable_digitChar (c.toNat % 16) (by omega)
    have hascii : isPrintable '\\' = true ∧ isPrintable 'u' = true ∧ isPrintable '0' = true := by
      decide
    refine .inr ⟨?_, by omega⟩
    unfold escaped
    rw [if_neg hquote, if_neg hslash, if_pos hcontrol]
    repeat' split
    case isFalse => simp only [List.all_cons, List.all_nil, hascii, hhigh, hlow, Bool.and_self]
    all_goals decide
  · refine .inl ⟨?_, by omega⟩
    have hne : ∀ d : Char, d.toNat < 0x20 → c ≠ d := by
      rintro d hd rfl
      exact hcontrol hd
    rw [escaped, if_neg hquote, if_neg hslash, if_neg (hne _ (by decide)),
      if_neg (hne _ (by decide)), if_neg (hne _ (by decide)), if_neg (hne _ (by decide)),
      if_neg (hne _ (by decide)), if_neg hcontrol]

theorem le_toNat_of_mem_escaped {c d : Char} (h : c ∈ escaped d) : 0x20 ≤ c.toNat := by
  rcases escaped_cases d with ⟨heq, hd⟩ | ⟨hall, -⟩
  · rw [heq, List.mem_singleton] at h
    rw [h]
    exact hd
  · exact (le_of_isPrintable (List.all_eq_true.1 hall c h)).1

theorem mem_escaped_iff {c d : Char} (hc : 0x7f < c.toNat) : c ∈ escaped d ↔ c = d := by
  rcases escaped_cases d with ⟨heq, -⟩ | ⟨hall, hd⟩
  · rw [heq, List.mem_singleton]
  · constructor
    · intro h
      have := (le_of_isPrintable (List.all_eq_true.1 hall c h)).2
      omega
    · rintro rfl
      omega

theorem mem_textChars {c : Char} {s : String} :
    c ∈ textChars s ↔ c = '"' ∨ ∃ d ∈ s.toList, c ∈ escaped d := by
  simp only [textChars, List.cons_append, List.mem_cons, List.mem_append, List.mem_flatMap,
    List.not_mem_nil, or_false]
  rw [or_comm (b := c = '"'), ← or_assoc, or_self]

theorem le_toNat_of_mem_textChars {c : Char} {s : String} (h : c ∈ textChars s) :
    0x20 ≤ c.toNat := by
  rcases mem_textChars.1 h with rfl | ⟨d, -, hd⟩
  · decide
  · exact le_toNat_of_mem_escaped hd

theorem mem_textChars_iff {c : Char} (hc : 0x7f < c.toNat) {s : String} :
    c ∈ textChars s ↔ c ∈ s.toList := by
  rw [mem_textChars, or_iff_right (ne_of_isPrintable hc (by decide))]
  constructor
  · rintro ⟨d, hd, hcd⟩
    rw [(mem_escaped_iff hc).1 hcd]
    exact hd
  · intro h
    exact ⟨c, h, (mem_escaped_iff hc).2 rfl⟩

/-! ## Characters of scalars -/

theorem isDigit_of_mem_repr {c : Char} {n : Nat} (h : c ∈ (Nat.repr n).toList) :
    c.isDigit = true := by
  rw [Nat.toList_repr] at h
  exact Nat.isDigit_of_mem_toDigits (by decide) (by decide) h

theorem isPrintable_of_mem_repr {c : Char} {n : Nat} (h : c ∈ (Nat.repr n).toList) :
    isPrintable c = true := by
  obtain ⟨hlow, hhigh⟩ := Char.isDigit_iff_toNat.1 (isDigit_of_mem_repr h)
  change 0x30 ≤ c.toNat at hlow
  change c.toNat ≤ 0x39 at hhigh
  rw [isPrintable, Bool.and_eq_true, decide_eq_true_eq, decide_eq_true_eq]
  omega

theorem isPrintable_of_mem_intChars {c : Char} {i : Int} (h : c ∈ intChars i) :
    isPrintable c = true := by
  unfold intChars at h
  split at h
  · rcases List.mem_cons.1 h with rfl | h
    · decide
    · exact isPrintable_of_mem_repr h
  · exact isPrintable_of_mem_repr h

/-! ## Characters of values -/

section
variable {c : Char}

theorem mem_chars_arr (hc : c ≠ ',') {xs : List Json} :
    c ∈ chars tight (arr xs) ↔ c = '[' ∨ c = ']' ∨ ∃ x ∈ xs, c ∈ chars tight x := by
  have hitems : c ∈ itemChars tight xs ↔ ∃ x ∈ xs, c ∈ chars tight x := by
    rw [itemChars_eq, tight, Text.mem_intercalate_iff hc]
    simp only [List.mem_map, exists_exists_and_eq_and]
  rw [chars, List.cons_append, List.mem_cons, List.mem_append, hitems, List.mem_singleton,
    or_comm (b := c = ']')]

theorem mem_chars_obj (hc : c ≠ ',') {fs : List (String × Json)} :
    c ∈ chars tight (obj fs) ↔ c = '\x7b' ∨ c = '\x7d' ∨
      ∃ f ∈ fs, c ∈ textChars f.1 ∨ c = ':' ∨ c ∈ chars tight f.2 := by
  have hfields : c ∈ fieldChars tight fs ↔
      ∃ f ∈ fs, c ∈ textChars f.1 ∨ c = ':' ∨ c ∈ chars tight f.2 := by
    rw [fieldChars_eq, tight, Text.mem_intercalate_iff hc]
    simp only [List.mem_map, exists_exists_and_eq_and, oneField, List.mem_append,
      List.mem_singleton, or_assoc]
  rw [chars, List.cons_append, List.mem_cons, List.mem_append, hfields, List.mem_singleton,
    or_comm (b := c = '\x7d')]

theorem isPrintable_of_mem_bool {b : Bool} (h : c ∈ chars tight (bool b)) :
    isPrintable c = true := by
  have hall : (chars tight (bool b)).all isPrintable = true := by
    cases b with
    | false => decide
    | true => decide
  exact List.all_eq_true.1 hall c h

theorem isPrintable_of_mem_null (h : c ∈ chars tight null) : isPrintable c = true := by
  have hall : (chars tight null).all isPrintable = true := by decide
  exact List.all_eq_true.1 hall c h

/-- No control characters are written. -/
theorem le_toNat_of_mem_chars {v : Json} (hv : v.Plain) (h : c ∈ chars tight v) :
    0x20 ≤ c.toNat := by
  induction hv with
  | null => exact (le_of_isPrintable (isPrintable_of_mem_null h)).1
  | bool b => exact (le_of_isPrintable (isPrintable_of_mem_bool h)).1
  | int i => exact (le_of_isPrintable (isPrintable_of_mem_intChars h)).1
  | str s => exact le_toNat_of_mem_textChars h
  | arr _ ih =>
    by_cases hc : c = ','
    · rw [hc]
      decide
    rcases (mem_chars_arr hc).1 h with rfl | rfl | ⟨x, hx, hcx⟩
    · decide
    · decide
    · exact ih x hx hcx
  | obj _ _ ih =>
    by_cases hc : c = ','
    · rw [hc]
      decide
    rcases (mem_chars_obj hc).1 h with rfl | rfl | ⟨f, hf, hkey | rfl | hvalue⟩
    · decide
    · decide
    · exact le_toNat_of_mem_textChars hkey
    · decide
    · exact ih f hf hvalue

/-- Beyond ASCII the characters of a value are those of its texts and keys. -/
theorem mem_chars_iff {v : Json} (hv : v.Plain) (hc : 0x7f < c.toNat) :
    c ∈ chars tight v ↔ ∃ s ∈ v.texts, c ∈ s.toList := by
  have hne : ∀ d : Char, isPrintable d = true → c ≠ d := fun d => ne_of_isPrintable hc
  have hcomma : c ≠ ',' := hne _ (by decide)
  induction hv with
  | null =>
    exact ⟨fun h => absurd rfl (hne c (isPrintable_of_mem_null h)), by simp [texts]⟩
  | bool b =>
    exact ⟨fun h => absurd rfl (hne c (isPrintable_of_mem_bool h)), by simp [texts]⟩
  | int i =>
    exact ⟨fun h => absurd rfl (hne c (isPrintable_of_mem_intChars h)), by simp [texts]⟩
  | str s =>
    simp only [texts, List.mem_singleton, exists_eq_left]
    exact mem_textChars_iff hc
  | arr _ ih =>
    rw [mem_chars_arr hcomma, or_iff_right (hne _ (by decide)),
      or_iff_right (hne _ (by decide))]
    simp only [texts, mem_itemTexts]
    constructor
    · rintro ⟨x, hx, hcx⟩
      obtain ⟨s, hs, hcs⟩ := (ih x hx).1 hcx
      exact ⟨s, ⟨x, hx, hs⟩, hcs⟩
    · rintro ⟨s, ⟨x, hx, hs⟩, hcs⟩
      exact ⟨x, hx, (ih x hx).2 ⟨s, hs, hcs⟩⟩
  | obj _ _ ih =>
    rw [mem_chars_obj hcomma, or_iff_right (hne _ (by decide)),
      or_iff_right (hne _ (by decide))]
    simp only [texts, mem_fieldTexts]
    constructor
    · rintro ⟨f, hf, hkey | hcolon | hvalue⟩
      · exact ⟨f.1, ⟨f, hf, .inl rfl⟩, (mem_textChars_iff hc).1 hkey⟩
      · exact absurd hcolon (hne _ (by decide))
      · obtain ⟨s, hs, hcs⟩ := (ih f hf).1 hvalue
        exact ⟨s, ⟨f, hf, .inr hs⟩, hcs⟩
    · rintro ⟨s, ⟨f, hf, rfl | hs⟩, hcs⟩
      · exact ⟨f, hf, .inl ((mem_textChars_iff hc).2 hcs)⟩
      · exact ⟨f, hf, .inr (.inr ((ih f hf).2 ⟨s, hs, hcs⟩))⟩

/-- A character beyond ASCII stands between two marks. -/
theorem exists_between {v : Json} (hv : v.Plain) (hc : 0x7f < c.toNat)
    (h : c ∈ chars tight v) :
    ∃ a m b, chars tight v = a :: (m ++ [b]) ∧ c ∈ m ∧
      Text.isBlank a = false ∧ Text.isBlank b = false := by
  have hne : ∀ d : Char, isPrintable d = true → c ≠ d := fun d => ne_of_isPrintable hc
  have hbetween : ∀ a b m, isPrintable a = true → isPrintable b = true →
      c ∈ a :: (m ++ [b]) → c ∈ m := by
    intro a b m ha hb hm
    rw [List.mem_cons, List.mem_append, List.mem_singleton] at hm
    exact (hm.resolve_left (hne a ha)).resolve_right (hne b hb)
  cases hv with
  | null => exact absurd rfl (hne c (isPrintable_of_mem_null h))
  | bool b => exact absurd rfl (hne c (isPrintable_of_mem_bool h))
  | int i => exact absurd rfl (hne c (isPrintable_of_mem_intChars h))
  | str s =>
    exact ⟨'"', _, '"', rfl, hbetween '"' '"' _ (by decide) (by decide) h, by decide, by decide⟩
  | arr _ =>
    exact ⟨'[', _, ']', rfl, hbetween '[' ']' _ (by decide) (by decide) h, by decide, by decide⟩
  | obj _ _ =>
    exact ⟨'\x7b', _, '\x7d', rfl, hbetween '\x7b' '\x7d' _ (by decide) (by decide) h,
      by decide, by decide⟩

end

end Json
end FormulaMap

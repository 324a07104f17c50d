/-
Trimming does not change the words of a text.

The words are what is left between runs of white space, so white space at either end
adds none.  A spelling is looked up by its words, so an operator is found whether its
text has been trimmed or not.
-/
import FormulaMap.Formula.Operator

namespace FormulaMap
namespace Text

theorem words_cons_blank {c : Char} (hc : isBlank c = true) (cs : List Char) :
    words (c :: cs) = words cs := by
  rw [words, words, List.splitOnP_cons_eq_if_modifyHead, if_pos hc]
  rfl

theorem words_append_blank {c : Char} (hc : isBlank c = true) (cs : List Char) :
    words (cs ++ [c]) = words cs := by
  rw [words, words, List.splitOnP_append_cons cs [] hc, List.splitOnP_nil, List.filter_append]
  exact List.append_nil _

theorem words_dropWhile_blank (cs : List Char) : words (cs.dropWhile isBlank) = words cs := by
  induction cs with
  | nil => rfl
  | cons c cs ih =>
    by_cases hc : isBlank c = true
    · rw [List.dropWhile_cons, if_pos hc, ih, words_cons_blank hc]
    · rw [List.dropWhile_cons, if_neg hc]

theorem words_reverse_dropWhile_blank (cs : List Char) :
    words (cs.dropWhile isBlank).reverse = words cs.reverse := by
  induction cs with
  | nil => rfl
  | cons c cs ih =>
    by_cases hc : isBlank c = true
    · rw [List.dropWhile_cons, if_pos hc, ih, List.reverse_cons, words_append_blank hc]
    · rw [List.dropWhile_cons, if_neg hc]

theorem words_trimChars (cs : List Char) : words (trimChars cs) = words cs := by
  have htail := words_reverse_dropWhile_blank (cs.dropWhile isBlank).reverse
  rw [List.reverse_reverse, words_dropWhile_blank] at htail
  exact htail

theorem squeeze_trim (s : String) : squeeze (trim s) = squeeze s := by
  rw [squeeze, squeeze, trim, String.toList_ofList, words_trimChars]

/-- Pieces with one character between them have no other characters than their own. -/
theorem mem_intercalate_iff {x c : Char} (h : x ≠ c) (bs : List (List Char)) :
    x ∈ [c].intercalate bs ↔ ∃ b ∈ bs, x ∈ b := by
  induction bs with
  | nil => simp
  | cons b bs ih =>
    cases bs with
    | nil => simp
    | cons b' bs =>
      rw [List.intercalate_cons_cons, List.mem_append, List.mem_append, ih]
      simp [h]

end Text

namespace Registry

theorem lookup_trim (r : Registry) (s : String) : r.lookup (Text.trim s) = r.lookup s := by
  rw [lookup, lookup, Text.squeeze_trim]

end Registry

theorem normalizeOperator_of_isMinusGlyph {s : String} (h : isMinusGlyph (Text.trim s) = true) :
    normalizeOperator s = "-" := by
  have hlookup : ∀ {g : String}, Text.trim s = g →
      Registry.standard.lookup s = Registry.standard.lookup g := by
    rintro g rfl
    exact (Registry.lookup_trim _ s).symm
  rw [isMinusGlyph, Bool.or_eq_true, beq_iff_eq, beq_iff_eq] at h
  rw [normalizeOperator, Registry.normalize]
  rcases h with hhyphen | hminus
  · have hfound : Registry.standard.lookup "-" = Registry.standard.canonical "-" := by
      decide
    rw [hlookup hhyphen, hfound]
    rfl
  · have hfound : Registry.standard.lookup "−" = Registry.standard.canonical "-" := by
      decide
    rw [hlookup hminus, hfound]
    rfl

end FormulaMap

/-
Sorted values, and values over several lines.

Sorting changes the order of fields only, so a sorted value is plain and has the integers and
the fields that the value has (`plain_sorted`, `exists_sorted_obj`).  Of the lines of an indented
value the first begins as the value does, and every other one with a space or with a closing
mark (`marked_indented`).
-/
import FormulaMap.Proofs.Json.Characters
import FormulaMap.Proofs.Text.Feeds
import Mathlib.Data.List.Nodup

namespace FormulaMap

/-- Where no key occurs twice, the value under a key is the one of its field. -/
theorem Fields.get?_eq_some_iff_of_nodup {β : Type} {fs : Fields β} (h : (fs.map (·.1)).Nodup)
    {k : String} {v : β} : Fields.get? k fs = some v ↔ (k, v) ∈ fs := by
  induction fs with
  | nil => simp [Fields.get?]
  | cons f fs ih =>
    obtain ⟨k', v'⟩ := f
    rw [List.map_cons, List.nodup_cons] at h
    rw [Fields.get?_cons, List.mem_cons, Prod.mk.injEq]
    by_cases hk : k' = k
    · subst hk
      have hnot : (k', v) ∉ fs := fun hmem => h.1 (List.mem_map.2 ⟨_, hmem, rfl⟩)
      simp [hnot, eq_comm]
    · have hne : k ≠ k' := fun heq => hk heq.symm
      simp [hk, hne, ih h.2]

namespace Json

/-! ## Sorted values -/

variable {v : Json} {fs : List (String × Json)}

theorem sortedItems_eq (xs : List Json) : sortedItems xs = xs.map sorted := by
  induction xs with
  | nil => rfl
  | cons x xs ih => rw [sortedItems, ih, List.map_cons]

theorem sortedFields_eq (fs : List (String × Json)) :
    sortedFields fs = fs.map fun f => (f.1, f.2.sorted) := by
  induction fs with
  | nil => rfl
  | cons f fs ih => rw [sortedFields, ih, List.map_cons]

/-- The fields of a sorted object are those of the object, with their values sorted. -/
theorem exists_sorted_obj (fs : List (String × Json)) :
    ∃ gs, (obj fs).sorted = obj gs ∧ gs.Perm (fs.map fun f => (f.1, f.2.sorted)) := by
  refine ⟨_, by rw [sorted], ?_⟩
  rw [← sortedFields_eq]
  exact List.mergeSort_perm _ _

theorem plain_sorted (hv : v.Plain) : v.sorted.Plain := by
  induction hv with
  | null => exact .null
  | bool b => exact .bool b
  | int i => exact .int i
  | str s => exact .str s
  | arr _ ih =>
    rw [sorted, sortedItems_eq]
    refine .arr fun x hx => ?_
    obtain ⟨y, hy, rfl⟩ := List.mem_map.1 hx
    exact ih y hy
  | @obj fs hkeys _ ih =>
    obtain ⟨gs, heq, hperm⟩ := exists_sorted_obj fs
    rw [heq]
    refine .obj ?_ fun g hg => ?_
    · rw [(hperm.map Prod.fst).nodup_iff, List.map_map]
      exact hkeys
    · obtain ⟨f, hf, rfl⟩ := List.mem_map.1 (hperm.mem_iff.1 hg)
      exact ih f hf

theorem integers_sorted_subset (hv : v.Plain) : v.sorted.integers ⊆ v.integers := by
  induction hv with
  | null => exact List.Subset.refl _
  | bool b => exact List.Subset.refl _
  | int i => exact List.Subset.refl _
  | str s => exact List.Subset.refl _
  | arr _ ih =>
    intro i hi
    rw [sorted, sortedItems_eq, integers, mem_itemIntegers] at hi
    obtain ⟨x, hx, hi⟩ := hi
    obtain ⟨y, hy, rfl⟩ := List.mem_map.1 hx
    exact mem_itemIntegers.2 ⟨y, hy, ih y hy hi⟩
  | @obj fs hkeys _ ih =>
    obtain ⟨gs, heq, hperm⟩ := exists_sorted_obj fs
    intro i hi
    rw [heq, integers, mem_fieldIntegers] at hi
    obtain ⟨g, hg, hi⟩ := hi
    obtain ⟨f, hf, rfl⟩ := List.mem_map.1 (hperm.mem_iff.1 hg)
    exact mem_fieldIntegers.2 ⟨f, hf, ih f hf hi⟩

/-! ## Values over several lines -/

open Text (Marked marked_of_not_mem)

/-- What stands behind the line feeds of an indented value. -/
def indentMarks : List Char := [' ', ']', '\x7d']

theorem marked_newLine_succ (depth : Nat) : Marked indentMarks (newLine (depth + 1)) := by
  have hspaces : newLine (depth + 1) = '\n' :: ' ' :: List.replicate (2 * depth + 1) ' ' := rfl
  rw [hspaces]
  exact Marked.feed (by decide) (marked_of_not_mem (by simp))

theorem marked_newLine_append {c : Char} (hc : c ∈ indentMarks) (depth : Nat) :
    Marked indentMarks (newLine depth ++ [c]) := by
  have hsingle : '\n' ∉ [c] := by
    rw [List.mem_singleton]
    rintro rfl
    exact absurd hc (by decide)
  cases depth with
  | zero => exact Marked.feed hc (marked_of_not_mem hsingle)
  | succ n => exact (marked_newLine_succ n).append (marked_of_not_mem hsingle)

theorem feed_not_mem_textChars (s : String) : '\n' ∉ textChars s :=
  fun h => absurd (le_toNat_of_mem_textChars h) (by decide)

theorem marked_scalar (hv : v.Plain) (h : chars tight v = scalar v) :
    Marked indentMarks (scalar v) :=
  marked_of_not_mem fun hmem => absurd (le_toNat_of_mem_chars hv (h ▸ hmem)) (by decide)

theorem marked_indentedItems {xs : List Json} {depth : Nat}
    (h : ∀ x ∈ xs, Marked indentMarks (indented (depth + 1) x)) :
    Marked indentMarks (indentedItems (depth + 1) xs) := by
  induction xs with
  | nil => exact marked_of_not_mem List.not_mem_nil
  | cons x xs ih =>
    rw [List.forall_mem_cons] at h
    have hx := (marked_newLine_succ depth).append h.1
    cases xs with
    | nil => exact hx
    | cons y xs => exact (hx.append (marked_of_not_mem (by decide))).append (ih h.2)

theorem marked_indentedFields {depth : Nat}
    (h : ∀ f ∈ fs, Marked indentMarks (indented (depth + 1) f.2)) :
    Marked indentMarks (indentedFields (depth + 1) fs) := by
  induction fs with
  | nil => exact marked_of_not_mem List.not_mem_nil
  | cons f fs ih =>
    rw [List.forall_mem_cons] at h
    obtain ⟨k, w⟩ := f
    have hkey := (marked_newLine_succ depth).append (marked_of_not_mem (feed_not_mem_textChars k))
    have hfield := (hkey.append (marked_of_not_mem (by decide : '\n' ∉ [':', ' ']))).append h.1
    cases fs with
    | nil => exact hfield
    | cons g fs => exact (hfield.append (marked_of_not_mem (by decide))).append (ih h.2)

theorem marked_indented (hv : v.Plain) (depth : Nat) : Marked indentMarks (indented depth v) := by
  have hopen : ∀ c : Char, c ≠ '\n' → Marked indentMarks [c] := fun c hc =>
    marked_of_not_mem fun h => hc (List.mem_singleton.1 h).symm
  induction hv generalizing depth with
  | null => exact marked_scalar .null rfl
  | bool b => exact marked_scalar (.bool b) rfl
  | int i => exact marked_scalar (.int i) rfl
  | str s => exact marked_scalar (.str s) rfl
  | @arr xs hplain ih =>
    cases xs with
    | nil => exact marked_scalar (.arr hplain) rfl
    | cons x xs =>
      have hitems := (hopen '[' (by decide)).append
        (marked_indentedItems fun y hy => ih y hy (depth + 1))
      have hclose := marked_newLine_append (by decide : ']' ∈ indentMarks) depth
      rw [indented, List.append_assoc]
      exact hitems.append hclose
  | @obj fs hkeys hplain ih =>
    cases fs with
    | nil => exact marked_scalar (.obj hkeys hplain) rfl
    | cons f fs =>
      have hfields := (hopen '\x7b' (by decide)).append
        (marked_indentedFields fun g hg => ih g hg (depth + 1))
      have hclose := marked_newLine_append (by decide : '\x7d' ∈ indentMarks) depth
      rw [indented, List.append_assoc]
      exact hfields.append hclose

/-- Every line of an object over several lines begins with a space or with a brace or bracket
that does not open a list. -/
theorem mem_lineStarts_pretty (hv : (obj fs).Plain) {c : Char}
    (hc : c ∈ Text.lineStarts (obj fs).pretty.toList) : c = '\x7b' ∨ c ∈ indentMarks := by
  have hhead : (indented 0 (obj fs)).head? = some '\x7b' := by
    cases fs <;> rfl
  rw [pretty, String.toList_ofList] at hc
  rcases Text.mem_lineStarts (marked_indented hv 0) hc with heq | hmark
  · rw [hhead, Option.some.injEq] at heq
    exact .inl heq.symm
  · exact .inr hmark

end Json
end FormulaMap

/-
Lines that end with a line feed, by the characters that they begin with.

A text without a line feed is one line.  Where a mark stands behind every line feed, the
lines after the first begin with marks (`mem_lineStarts`), and that is kept when texts are
put together (`Marked.append`).
-/
import Mathlib.Data.List.Basic

namespace FormulaMap
namespace Text

variable {as bs cs marks : List Char} {c : Char}

/-- The characters at the front of the lines; an empty line has none. -/
def lineStarts (cs : List Char) : List Char := (cs.splitOn '\n').filterMap List.head?

theorem splitOn_append_feed (as bs : List Char) :
    (as ++ '\n' :: bs).splitOn '\n' = as.splitOn '\n' ++ bs.splitOn '\n' :=
  List.splitOnP_append_cons as bs (beq_self_eq_true '\n')

theorem lineStarts_append_feed (as bs : List Char) :
    lineStarts (as ++ '\n' :: bs) = lineStarts as ++ lineStarts bs := by
  rw [lineStarts, splitOn_append_feed, List.filterMap_append]
  rfl

theorem lineStarts_of_not_mem (h : '\n' ∉ cs) : lineStarts cs = cs.head?.toList := by
  rw [lineStarts, List.splitOn_eq_singleton h]
  cases cs <;> rfl

/-- A text without a line feed. -/
def OneLine (s : String) : Prop := '\n' ∉ s.toList

instance : DecidablePred OneLine := fun s => inferInstanceAs (Decidable ('\n' ∉ s.toList))

theorem OneLine.append {s t : String} (hs : OneLine s) (ht : OneLine t) : OneLine (s ++ t) := by
  rw [OneLine, String.toList_append, List.mem_append, not_or]
  exact ⟨hs, ht⟩

/-! ## Marks behind line feeds -/

/-- Behind every line feed stands one of the marks. -/
def Marked (marks cs : List Char) : Prop :=
  ∀ as bs, cs = as ++ '\n' :: bs → ∃ c ∈ marks, bs.head? = some c

theorem marked_of_not_mem (h : '\n' ∉ cs) : Marked marks cs := by
  rintro as bs rfl
  exact absurd (List.mem_append_right as List.mem_cons_self) h

theorem Marked.append (ha : Marked marks as) (hb : Marked marks bs) : Marked marks (as ++ bs) := by
  intro xs ys heq
  rcases List.append_eq_append_iff.1 heq with ⟨zs, rfl, hbs⟩ | ⟨zs, has, hys⟩
  · exact hb zs ys hbs
  · cases zs with
    | nil => exact hb [] ys hys.symm
    | cons z zs =>
      rw [List.cons_append, List.cons.injEq] at hys
      obtain ⟨rfl, rfl⟩ := hys
      obtain ⟨c, hc, hhead⟩ := ha xs zs has
      exact ⟨c, hc, by rw [List.head?_append, hhead]; rfl⟩

theorem Marked.feed (hc : c ∈ marks) (h : Marked marks (c :: cs)) :
    Marked marks ('\n' :: c :: cs) := by
  intro xs ys heq
  cases xs with
  | nil =>
    rw [List.nil_append, List.cons.injEq] at heq
    exact ⟨c, hc, by rw [← heq.2]; rfl⟩
  | cons x xs => exact h xs ys (List.cons.inj heq).2

/-- The first line begins as the text does, and every other one with a mark. -/
theorem mem_lineStarts (h : Marked marks cs) (hc : c ∈ lineStarts cs) :
    cs.head? = some c ∨ c ∈ marks := by
  induction hlength : cs.length using Nat.strongRecOn generalizing cs with
  | ind n ih =>
    by_cases hfeed : '\n' ∈ cs
    · obtain ⟨as, bs, rfl, has⟩ := List.eq_append_cons_of_mem hfeed
      rw [lineStarts_append_feed, lineStarts_of_not_mem has, List.mem_append,
        Option.mem_toList] at hc
      rcases hc with hc | hc
      · exact .inl (by rw [List.head?_append, hc]; rfl)
      · obtain ⟨d, hd, hhead⟩ := h as bs rfl
        have hbs : Marked marks bs := fun xs ys heq => h (as ++ '\n' :: xs) ys (by simp [heq])
        have hshorter : bs.length < n := by
          rw [← hlength, List.length_append, List.length_cons]
          omega
        rcases ih _ hshorter hbs hc rfl with heq | hmark
        · rw [hhead, Option.some.injEq] at heq
          exact .inr (heq ▸ hd)
        · exact .inr hmark
    · rw [lineStarts_of_not_mem hfeed, Option.mem_toList] at hc
      exact .inl hc

end Text
end FormulaMap

/-
The lines of texts that are put together.

A boundary ends a line wherever it stands, so the lines of a text are the lines up to a
boundary and the lines after it (`linesFrom_append`).  Every boundary is white space:
a character that is not lies on a line of its own text, and a text that shows something
on both sides of a boundary has two lines that are not blank (`two_le_length_shown`).
-/
import FormulaMap.Text.Blank
import FormulaMap.Text.Lines

namespace FormulaMap
namespace Text

/-! ## Boundaries -/

/-- The boundaries that are no control characters of ASCII. -/
def wideBoundaries : List Char := ['\u0085', '\u2028', '\u2029']

theorem lt_of_mem_wideBoundaries : ∀ c ∈ wideBoundaries, 0x7f < c.toNat :=
  forall_mem_of_all (by decide)

theorem isLineBoundary_iff {c : Char} (hc : 0x20 ≤ c.toNat) :
    isLineBoundary c = true ↔ c ∈ wideBoundaries := by
  have heq : ∀ d : Char, c = d ↔ c.toNat = d.toNat := fun d => Char.toNat_inj.symm
  have h85 : '\u0085'.toNat = 0x85 := rfl
  have h2028 : '\u2028'.toNat = 0x2028 := rfl
  have h2029 : '\u2029'.toNat = 0x2029 := rfl
  simp only [isLineBoundary, wideBoundaries, Bool.or_eq_true, Bool.and_eq_true,
    decide_eq_true_eq, beq_iff_eq, List.mem_cons, List.not_mem_nil, or_false, heq, h85, h2028,
    h2029]
  omega

theorem isBlank_of_isLineBoundary {c : Char} (h : isLineBoundary c = true) :
    isBlank c = true := by
  simp only [isLineBoundary, Bool.or_eq_true, Bool.and_eq_true, decide_eq_true_eq,
    beq_iff_eq] at h
  refine (CharSet.has_iff _ _).2 ?_
  rcases h with (((h | h) | h) | h) | h
  · exact ⟨(9, 13), by decide, by omega, by omega⟩
  · exact ⟨(28, 32), by decide, by omega, by omega⟩
  · exact ⟨(133, 133), by decide, by omega, by omega⟩
  · exact ⟨(8232, 8233), by decide, by omega, by omega⟩
  · exact ⟨(8232, 8233), by decide, by omega, by omega⟩

/-! ## Lines up to a boundary -/

theorem linesFrom_cons {c : Char} (hc : c ≠ '\r') (line rest : List Char) :
    linesFrom line (c :: rest) =
      if isLineBoundary c then line.reverse :: linesFrom [] rest
      else linesFrom (c :: line) rest := by
  rw [linesFrom]
  rintro _ rfl
  exact absurd rfl hc

/-- A boundary other than a carriage return ends a line, whatever follows it. -/
theorem linesFrom_append {c : Char} (hc : isLineBoundary c = true) (hreturn : c ≠ '\r')
    {cs : List Char} (hcs : '\r' ∉ cs) (line rest : List Char) :
    linesFrom line (cs ++ c :: rest) = linesFrom line (cs ++ [c]) ++ linesFrom [] rest := by
  induction cs generalizing line with
  | nil =>
    rw [List.nil_append, List.nil_append, linesFrom_cons hreturn, linesFrom_cons hreturn,
      if_pos hc, if_pos hc]
    rfl
  | cons d cs ih =>
    rw [List.mem_cons, not_or] at hcs
    have hd : d ≠ '\r' := fun h => hcs.1 h.symm
    rw [List.cons_append, List.cons_append, linesFrom_cons hd, linesFrom_cons hd, ih hcs.2,
      ih hcs.2]
    split
    · rfl
    · rfl

/-- A text without boundaries is one line. -/
theorem linesFrom_of_no_boundary {cs : List Char} (hcs : ∀ c ∈ cs, isLineBoundary c = false)
    (line : List Char) : linesFrom line (cs ++ ['\n']) = [line.reverse ++ cs] := by
  induction cs generalizing line with
  | nil =>
    rw [List.nil_append, linesFrom_cons (by decide), if_pos (by decide), List.append_nil]
    rfl
  | cons c cs ih =>
    have hc := hcs c List.mem_cons_self
    have hreturn : c ≠ '\r' := by
      rintro rfl
      exact absurd hc (by decide)
    rw [List.cons_append, linesFrom_cons hreturn, hc, if_neg Bool.false_ne_true,
      ih fun d hd => hcs d (List.mem_cons_of_mem _ hd), List.reverse_cons, List.append_assoc]
    rfl

theorem linesFrom_flatMap {α : Type} {f : α → List Char} {xs : List α}
    (h : ∀ x ∈ xs, '\r' ∉ f x) :
    linesFrom [] (xs.flatMap fun x => f x ++ ['\n']) =
      xs.flatMap fun x => linesFrom [] (f x ++ ['\n']) := by
  induction xs with
  | nil => rfl
  | cons x xs ih =>
    rw [List.flatMap_cons, List.flatMap_cons, List.append_assoc, List.singleton_append,
      linesFrom_append (by decide) (by decide) (h x List.mem_cons_self),
      ih fun y hy => h y (List.mem_cons_of_mem _ hy)]

/-! ## Lines that show something -/

/-- The lines of a text that are not blank. -/
def shown (cs : List Char) : List (List Char) :=
  (linesFrom [] cs).filter fun l => !l.all isBlank

theorem mem_line_of_mem {c : Char} (hc : isBlank c = false) (cs line : List Char)
    (h : c ∈ line ∨ c ∈ cs) : ∃ l ∈ linesFrom line cs, c ∈ l := by
  have hboundary : ∀ d, isLineBoundary d = true → c ≠ d := by
    rintro d hd rfl
    rw [isBlank_of_isLineBoundary hd] at hc
    exact absurd hc (by decide)
  induction line, cs using linesFrom.induct with
  | case1 line hempty =>
    rw [List.isEmpty_iff] at hempty
    subst hempty
    rcases h with h | h
    · exact absurd h List.not_mem_nil
    · exact absurd h List.not_mem_nil
  | case2 line hempty =>
    rw [linesFrom, if_neg hempty]
    exact ⟨_, List.mem_singleton_self _, List.mem_reverse.2 (h.resolve_right List.not_mem_nil)⟩
  | case3 line rest ih =>
    rw [linesFrom]
    rcases h with h | h
    · exact ⟨_, List.mem_cons_self, List.mem_reverse.2 h⟩
    · rw [List.mem_cons, List.mem_cons] at h
      have hrest : c ∈ rest :=
        (h.resolve_left (hboundary _ (by decide))).resolve_left (hboundary _ (by decide))
      obtain ⟨l, hl, hcl⟩ := ih (.inr hrest)
      exact ⟨l, List.mem_cons_of_mem _ hl, hcl⟩
  | case4 line d rest hcr hd ih =>
    rw [linesFrom, if_pos hd]
    · rcases h with h | h
      · exact ⟨_, List.mem_cons_self, List.mem_reverse.2 h⟩
      · obtain ⟨l, hl, hcl⟩ := ih (.inr ((List.mem_cons.1 h).resolve_left (hboundary _ hd)))
        exact ⟨l, List.mem_cons_of_mem _ hl, hcl⟩
    · exact hcr
  | case5 line d rest hcr hd ih =>
    rw [linesFrom, if_neg hd]
    · rw [List.mem_cons, ← or_assoc, or_comm (a := c ∈ line), ← List.mem_cons] at h
      exact ih h
    · exact hcr

theorem one_le_length_shown {c : Char} (hc : isBlank c = false) {cs : List Char}
    (h : c ∈ cs) : 1 ≤ (shown cs).length := by
  obtain ⟨l, hl, hcl⟩ := mem_line_of_mem hc cs [] (.inr h)
  refine List.length_pos_of_mem (List.mem_filter.2 ⟨hl, ?_⟩)
  rw [Bool.not_eq_true', List.all_eq_false]
  exact ⟨c, hcl, by rw [hc]; exact Bool.false_ne_true⟩

/-- What stands on both sides of a boundary is shown on two lines. -/
theorem two_le_length_shown {c d e : Char} (hc : isLineBoundary c = true) (hreturn : c ≠ '\r')
    {before after : List Char} (hbefore : '\r' ∉ before) (hd : isBlank d = false)
    (hd' : d ∈ before) (he : isBlank e = false) (he' : e ∈ after) :
    2 ≤ (shown (before ++ c :: after)).length := by
  have hfirst := one_le_length_shown hd (List.mem_append_left [c] hd')
  have hsecond := one_le_length_shown he he'
  unfold shown at *
  rw [linesFrom_append hc hreturn hbefore, List.filter_append, List.length_append]
  omega

/-! ## Line ends -/

theorem unifyLineEnds_of_no_return {cs : List Char} (h : '\r' ∉ cs) : unifyLineEnds cs = cs := by
  induction cs with
  | nil => rfl
  | cons c cs ih =>
    rw [List.mem_cons, not_or] at h
    have hc : c ≠ '\r' := fun heq => h.1 heq.symm
    rw [unifyLineEnds, if_neg hc, ih h.2]
    rintro _ rfl
    exact absurd rfl hc

end Text
end FormulaMap

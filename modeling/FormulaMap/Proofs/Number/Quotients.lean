/-
Numerals that divide by zero.

A numeral is read or it is not, with one exception: a decimal over a decimal that is zero
(`rational?_eq_error_iff`).  A decimal holds no solidus, since each scanner leaves in the rest
every character that it does not know, and in the end only blanks may be left.  So the solidus
of a quotient is the one that it is cut at.
-/
import FormulaMap.Formula.Value
import Mathlib.Data.List.TakeWhile
import Mathlib.Data.Option.Basic

namespace FormulaMap
namespace Numeral

/-- A character that stands in no decimal. -/
structure Foreign (c : Char) : Prop where
  digit : Text.isDecimal c = false
  mark : FloatText.isExponentMark c = false
  blank : Text.isBlank c = false
  separator : c ∉ ['_', '+', '-', '.']

theorem foreign_solidus : Foreign '/' :=
  ⟨by decide +kernel, by decide, by decide +kernel, by decide⟩

variable {c : Char} {cs rest : List Char}

/-! ## Scanning -/

theorem Foreign.mem_grouped (hc : Foreign c) (h : c ∈ cs) : c ∈ (grouped cs).2 := by
  induction cs with
  | nil => exact h
  | cons d ds ih =>
    rw [grouped]
    split
    · next hd =>
      have hne : c ≠ d := by
        rintro rfl
        exact absurd (hc.digit.symm.trans hd) Bool.false_ne_true
      exact ih (List.mem_of_ne_of_mem hne h)
    · exact h

theorem Foreign.mem_groups (hc : Foreign c) (n : Nat) (h : c ∈ cs) : c ∈ (groups n cs).2 := by
  induction n generalizing cs with
  | zero => exact hc.mem_grouped h
  | succ n ih =>
    have hmem := hc.mem_grouped h
    rw [groups]
    split
    · next heq =>
      rw [heq] at hmem
      split
      · have hne : c ≠ '_' := fun heq => hc.separator (heq ▸ List.mem_cons_self)
        exact ih (List.mem_of_ne_of_mem hne hmem)
      · exact hmem
    · exact hmem

theorem Foreign.mem_run (hc : Foreign c) (h : c ∈ cs) : c ∈ (run cs).2 :=
  hc.mem_groups cs.length h

theorem Foreign.mem_sign (hc : Foreign c) (h : c ∈ cs) : c ∈ (FloatText.sign cs).2 := by
  have hsep := hc.separator
  rw [FloatText.sign.eq_def]
  split
  · exact List.mem_of_ne_of_mem (by rintro rfl; simp at hsep) h
  · exact List.mem_of_ne_of_mem (by rintro rfl; simp at hsep) h
  · exact h

theorem Foreign.mem_dropWhile (hc : Foreign c) (h : c ∈ cs) :
    c ∈ cs.dropWhile Text.isBlank := by
  rw [← List.takeWhile_append_dropWhile (p := Text.isBlank) (l := cs), List.mem_append] at h
  refine h.resolve_left fun hmem => ?_
  exact absurd (hc.blank.symm.trans (List.mem_takeWhile_imp hmem)) Bool.false_ne_true

theorem Foreign.mem_of_exponentPart (hc : Foreign c) {e : Int}
    (heq : exponentPart cs = some (e, rest)) (h : c ∈ cs) : c ∈ rest := by
  cases cs with
  | nil => exact absurd h List.not_mem_nil
  | cons d ds =>
    rw [exponentPart] at heq
    split at heq
    · next hd =>
      have hne : c ≠ d := by
        rintro rfl
        exact absurd (hc.mark.symm.trans hd) Bool.false_ne_true
      have hmem := hc.mem_run (hc.mem_sign (List.mem_of_ne_of_mem hne h))
      dsimp only at heq
      split at heq
      · cases heq
      · obtain ⟨_, -, hpair⟩ := Option.map_eq_some_iff.1 heq
        rw [← (Prod.mk.inj hpair).2]
        exact hmem
    · rw [Option.some.injEq, Prod.mk.injEq] at heq
      exact heq.2 ▸ h

/-- A text with a foreign character is no decimal. -/
theorem Foreign.decimal?_eq_none (hc : Foreign c) (h : c ∈ cs) : decimal? cs = none := by
  have hwhole := hc.mem_run (hc.mem_sign (hc.mem_dropWhile h))
  rw [Option.eq_none_iff_forall_ne_some]
  intro x hx
  simp only [decimal?, Option.bind_eq_bind, Option.bind_eq_some_iff] at hx
  obtain ⟨_, -, ⟨e, rest⟩, hexponent, _, hblank, -⟩ := hx
  have hmem : c ∈ rest := by
    refine hc.mem_of_exponentPart hexponent ?_
    split
    · next heq =>
      rw [heq] at hwhole
      have hne : c ≠ '.' := fun heq => by simpa [heq] using hc.separator
      exact hc.mem_run (List.mem_of_ne_of_mem hne hwhole)
    · exact hwhole
  simp only [Option.guard_eq_some', List.all_eq_true] at hblank
  exact absurd (hc.blank.symm.trans (hblank c hmem)) Bool.false_ne_true

/-! ## Quotients -/

/-- Without its spaces, the text is a decimal for `x` over a decimal for zero. -/
def QuotientByZero (text : String) (x : Rat) : Prop :=
  ∃ p q : List Char, text.toList.filter (· ≠ ' ') = p ++ '/' :: q ∧ decimal? p = some x ∧
    decimal? q = some 0

variable {text : String}

theorem read_eq_zeroDivisor_iff {sign : Int} :
    read text = .zeroDivisor sign ↔ ∃ x, QuotientByZero text x ∧ sign = signOf x := by
  constructor
  · intro h
    rw [read] at h
    split at h
    · split at h <;> cases h
    · next p q hsplit =>
      split at h
      · next x y hx hy =>
        split at h
        · next hzero =>
          subst hzero
          refine ⟨x, ⟨p, q, ?_, hx, hy⟩, (Numeral.zeroDivisor.inj h).symm⟩
          have hjoin : text.toList.filter (· ≠ ' ') = ['/'].intercalate [p, q] := by
            rw [← hsplit, List.intercalate_splitOn]
          simpa [List.intercalate] using hjoin
        · cases h
      · cases h
    · cases h
  · rintro ⟨x, ⟨p, q, hfilter, hp, hq⟩, rfl⟩
    have hslash : ∀ cs : List Char, ∀ y, decimal? cs = some y → '/' ∉ cs := by
      intro cs y hy hmem
      rw [foreign_solidus.decimal?_eq_none hmem] at hy
      cases hy
    rw [read, hfilter, List.splitOn_append_cons_self_of_not_mem (hslash p x hp),
      List.splitOn_eq_singleton (hslash q 0 hq)]
    simp only [hp, hq, if_true]

/-- Reading a literal as a number fails to give an answer only for a quotient by zero. -/
theorem rational?_eq_error_iff {z : ZeroDivisor} :
    rational? text = .error z ↔ ∃ x, QuotientByZero text x ∧ z = ⟨signOf x⟩ := by
  obtain ⟨sign⟩ := z
  have hread : rational? text = .error ⟨sign⟩ ↔ read text = .zeroDivisor sign := by
    rw [rational?]
    cases read text <;> simp
  rw [hread, read_eq_zeroDivisor_iff]
  simp only [ZeroDivisor.mk.injEq]

end Numeral
end FormulaMap

/-
The fraction of a mixed number.

The parts of a mixed number should be in its own fraction: in the innermost element of
class `mfrac` around the bar that the whole number is joined with (`OwnFraction`).  The
pass never looks at elements, though.  It goes by boxes alone and asks of a numeral below a
bar only that it is no wider than the bar, so the denominator of a fraction around the
mixed number is taken as well (`sevenths`).  The parts are in their own fraction exactly
when whatever else stands on the bar of a whole number also stands on the bar of a later
one, which then marks it (`partsInside_iff`).
-/
import FormulaMap.Proofs.Surface.MixedNumbers
import FormulaMap.Proofs.Surface.Visits

namespace FormulaMap

open FormulaMap.Tree (Reaches)

variable {α : Type}

/-! ## Elements in elements -/

/-- The address of an element leads on to another one below it. -/
def Encloses (a b : Address) : Prop := a <+: b ∧ a ≠ b

instance (a b : Address) : Decidable (Encloses a b) := inferInstanceAs (Decidable (_ ∧ _))

namespace Layout

/-- The address leads to an element of this class. -/
def ClassAt (container : Address) (layout : Layout α) (name : String) (a : Address) : Prop :=
  ∃ l, Reaches container layout a l ∧ l.value.hasClass name = true

/-- The innermost fraction that an element lies in. -/
structure OwnFraction (container : Address) (layout : Layout α) (a f : Address) : Prop where
  fraction : layout.ClassAt container "mfrac" f
  around : Encloses f a
  innermost : ∀ g, layout.ClassAt container "mfrac" g → Encloses g a → g <+: f

/-- An element lies in the innermost fraction around another one. -/
def InOwnFraction (container : Address) (layout : Layout α) (line a : Address) : Prop :=
  ∃ f, layout.OwnFraction container line f ∧ Encloses f a

/-- Every fraction line lies in a fraction. -/
def LinesInFractions (container : Address) (layout : Layout α) : Prop :=
  ∀ a, layout.ClassAt container "frac-line" a →
    ∃ f, layout.ClassAt container "mfrac" f ∧ Encloses f a

variable {container a f : Address} {layout : Layout α}

/-- Of the fractions around an element one is innermost. -/
theorem exists_ownFraction (hf : layout.ClassAt container "mfrac" f) (hin : Encloses f a) :
    ∃ g, layout.OwnFraction container a g := by
  induction hk : a.length - f.length using Nat.strong_induction_on generalizing f with
  | _ k ih =>
    by_cases hinner : ∀ g, layout.ClassAt container "mfrac" g → Encloses g a → g <+: f
    · exact ⟨f, hf, hin, hinner⟩
    · simp only [not_forall] at hinner
      obtain ⟨g, hg, hgin, hfar⟩ := hinner
      have hdeeper : f.length < g.length := by
        refine Nat.lt_of_not_le fun hle => hfar ?_
        exact List.prefix_of_prefix_length_le hgin.1 hin.1 hle
      have hlength := hgin.1.length_le
      exact ih (a.length - g.length) (by omega) hg hgin rfl

theorem OwnFraction.unique {g : Address} (hf : layout.OwnFraction container a f)
    (hg : layout.OwnFraction container a g) : g = f := by
  have hgf := hf.innermost g hg.fraction hg.around
  have hfg := hg.innermost f hf.fraction hf.around
  exact hgf.eq_of_length (Nat.le_antisymm hgf.length_le hfg.length_le)

/-- When lines lie in fractions, every line has a fraction of its own. -/
theorem LinesInFractions.existsUnique (h : layout.LinesInFractions container)
    (ha : layout.ClassAt container "frac-line" a) : ∃! f, layout.OwnFraction container a f := by
  obtain ⟨f, hf, hin⟩ := h a ha
  obtain ⟨g, hg⟩ := exists_ownFraction hf hin
  exact ⟨g, hg, fun _ hother => hg.unique hother⟩

end Layout

namespace SurfaceMap

open Enhance

variable [Coordinate α]

/-- The numerals that are marked as parts of a whole number lie in the fraction of its bar. -/
def PartsInside (container : Address) (layout : Layout α) (m : SurfaceMap α) : Prop :=
  ∀ n ∈ m.atoms, n.kind.isNumeric = true → ∀ w ∈ m.atoms, ∀ b ∈ m.atoms,
    n.marks.partOf = some w.id → w.marks.bar = some b.id →
      layout.InOwnFraction container b.source n.source

/-- What a whole number claims of the numerals is what stands on its bar. -/
theorem OnceRefined.claims_numeral_iff {t : Tolerances α} {ns : List (Node α)} {r : Findings α}
    {m : SurfaceMap α} (h : OnceRefined t ns r m) {n w b : Node α}
    (hnumeric : n.kind.isNumeric = true) (hn : n ∈ m.atoms) (hw : w ∈ m.atoms) (hb : b ∈ m.atoms)
    (hbar : w.marks.bar = some b.id) :
    m.Claims w n ↔ w.kind = .mixedNumber ∧ StandsOn n b := by
  constructor
  · intro hclaim
    rcases h.bar_or_standsOn hn hw hclaim with ⟨hkind, -⟩ | ⟨-, c, hc, hcbar, hstands⟩
    · rw [hkind] at hnumeric
      exact absurd hnumeric Bool.false_ne_true
    · obtain rfl := h.eq_of_id hc hb (Option.some.inj (hcbar.symm.trans hbar))
      exact ⟨hclaim.1, hstands⟩
  · rintro ⟨hkind, hstands⟩
    exact ⟨hkind, b, hb, hbar, Or.inr ⟨hnumeric, standsOn_iff.2 hstands⟩⟩

/-- The parts of mixed numbers are in their own fractions exactly when every numeral that
stands on the bar of a whole number is in the fraction of the bar, or stands on the bar of a
later whole number. -/
theorem partsInside_iff (t : Tolerances α) (container : Address) (layout : Layout α) :
    let m := (build t container layout).enhance t
    PartsInside container layout m ↔
      ∀ n ∈ m.atoms, n.kind.isNumeric = true → ∀ w ∈ m.atoms, ∀ b ∈ m.atoms,
        w.kind = .mixedNumber → w.marks.bar = some b.id → StandsOn n b →
          layout.InOwnFraction container b.source n.source ∨
            ∃ v ∈ m.atoms, ∃ c ∈ m.atoms, [w, v].Sublist m.atomsInOrder ∧ v.kind = .mixedNumber ∧
              v.marks.bar = some c.id ∧ StandsOn n c := by
  obtain ⟨ns, r, h⟩ := exists_onceRefined_build t container layout
  intro m
  change OnceRefined t ns r m at h
  clear_value m
  constructor
  · intro hinside n hn hnumeric w hw b hb hkind hbar hstands
    by_cases hlast : ∀ v, [w, v].Sublist m.atomsInOrder → ¬m.Claims v n
    · have hclaim := (h.claims_numeral_iff hnumeric hn hw hb hbar).2 ⟨hkind, hstands⟩
      exact Or.inl (hinside n hn hnumeric w hw b hb ((h.partOf_iff hn hw).2 ⟨hclaim, hlast⟩) hbar)
    · simp only [not_forall, not_not] at hlast
      obtain ⟨v, hlater, hclaim⟩ := hlast
      have hv : v ∈ m.atoms := (sortBy_perm _ m.atoms).mem_iff.1 (hlater.subset (by simp))
      obtain ⟨c, hc, -, hcbar, -⟩ := h.exists_bar hv hclaim.1
      obtain ⟨hvkind, hvstands⟩ := (h.claims_numeral_iff hnumeric hn hv hc hcbar).1 hclaim
      exact Or.inr ⟨v, hv, c, hc, hlater, hvkind, hcbar, hvstands⟩
  · intro hstanding n hn hnumeric w hw b hb hpart hbar
    obtain ⟨hclaim, hlast⟩ := (h.partOf_iff hn hw).1 hpart
    obtain ⟨hkind, hstands⟩ := (h.claims_numeral_iff hnumeric hn hw hb hbar).1 hclaim
    refine (hstanding n hn hnumeric w hw b hb hkind hbar hstands).resolve_right ?_
    rintro ⟨v, hv, c, hc, hlater, hvkind, hcbar, hvstands⟩
    exact hlast v hlater ((h.claims_numeral_iff hnumeric hn hv hc hcbar).2 ⟨hvkind, hvstands⟩)

/-- One and twelve twenty-fifths, over seven. -/
def sevenths : Layout Rat :=
  let page : Box Rat := ⟨0, 0, 28, 60⟩
  .node ⟨["katex"], "", page, []⟩ [.node ⟨[formulaClass], "", page, []⟩
    [.node ⟨[groupClass], "", page, []⟩ [.node ⟨["mfrac"], "", page, []⟩
      [.node ⟨["mord"], "7", ⟨11, 50, 17, 60⟩, []⟩ [],
       .node ⟨["frac-line"], "", ⟨0, 44, 28, 46⟩, []⟩ [],
       .node ⟨["mord"], "", ⟨0, 0, 28, 40⟩, []⟩
        [.node ⟨["mord"], "1", ⟨0, 15, 6, 25⟩, []⟩ [],
         .node ⟨["mfrac"], "", ⟨8, 0, 28, 40⟩, []⟩
          [.node ⟨["mord"], "12", ⟨12, 0, 24, 10⟩, []⟩ [],
           .node ⟨["frac-line"], "", ⟨8, 19, 28, 21⟩, []⟩ [],
           .node ⟨["mord"], "25", ⟨12, 30, 24, 40⟩, []⟩ []]]]]]]

/-- The seven is marked as a part of the one, and is not in the fraction of its bar. -/
theorem not_forall_partsInside :
    ¬ ∀ (container : Address) (layout : Layout Rat), layout.LinesInFractions container →
      PartsInside container layout ((build .standard container layout).enhance .standard) := by
  intro h
  have hlines : sevenths.LinesInFractions [] := by
    have hplaces : ∀ p ∈ Tree.places [] sevenths, p.2.value.hasClass "frac-line" = true →
        ∃ q ∈ Tree.places [] sevenths, q.2.value.hasClass "mfrac" = true ∧ Encloses q.1 p.1 := by
      decide +kernel
    rintro a ⟨l, hl, hclass⟩
    obtain ⟨q, hq, hfraction, hin⟩ := hplaces (a, l) ((Tree.mem_places _ _ _).2 hl) hclass
    exact ⟨q.1, ⟨q.2, (Tree.mem_places _ _ _).1 hq, hfraction⟩, hin⟩
  have hmarked : ∃ n ∈ ((build .standard [] sevenths).enhance .standard).atoms,
      ∃ w ∈ ((build .standard [] sevenths).enhance .standard).atoms,
      ∃ b ∈ ((build .standard [] sevenths).enhance .standard).atoms,
        n.kind.isNumeric = true ∧ n.marks.partOf = some w.id ∧ w.marks.bar = some b.id ∧
          n.source = [0, 0, 0, 0] ∧ b.source = [0, 0, 0, 2, 1, 1] := by
    decide +kernel
  obtain ⟨n, hn, w, hw, b, hb, hnumeric, hpart, hbar, hnsource, hbsource⟩ := hmarked
  obtain ⟨f, hown, hin⟩ := h [] sevenths hlines n hn hnumeric w hw b hb hpart hbar
  rw [hbsource] at hown
  rw [hnsource] at hin
  have hinner : sevenths.ClassAt [] "mfrac" [0, 0, 0, 2, 1] := by
    refine ⟨_, ⟨[0, 0, 0, 2, 1], rfl, rfl⟩, ?_⟩
    rfl
  have hbetween := (hown.innermost _ hinner (by decide)).trans hin.1
  exact absurd hbetween (by decide)

end SurfaceMap
end FormulaMap

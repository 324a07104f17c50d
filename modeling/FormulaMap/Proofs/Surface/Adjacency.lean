/-
What stands between a whole number and its bar.

A mixed number is a whole number right before a fraction, with no sign in between.  The
pass over the wholes does not look at what is in between.  It takes any bar that starts
less than a gap of fixed width to the right, so in small print a whole operator fits into
the gap (`smallSum`).  Wholes are adjacent to their bars exactly when nothing stands between
a number and the first bar after it (`wholesAdjacent_iff`), and what does stand there is
narrower than the gap (`width_lt_of_between`).
-/
import FormulaMap.Proofs.Geometry.Exact
import FormulaMap.Proofs.Surface.MixedNumbers

namespace FormulaMap

variable {α : Type}

/-- Operators, relations, brackets and numbers: what separates a number from a fraction. -/
def Kind.separates : Kind → Bool
  | num | decimal | mixedNumber | binaryOp | op | minusBinary | minusUnary | relation | parenOpen
  | parenClose => true
  | _ => false

namespace SurfaceMap

open Enhance

variable [Coordinate α]

/-- A leaf that separates a number from a bar: it lies between the two, with its middle
beside the bar. -/
structure Between (m : SurfaceMap α) (w b x : Node α) : Prop where
  leaf : x ∈ m.root.leaves
  atom : x.atom = true
  separates : x.kind.separates = true
  other : x ≠ w
  unrelated : w.related x = false
  right : w.box.right ≤ x.box.left
  left : x.box.right ≤ b.box.left
  beside : b.box.top < x.box.midY ∧ x.box.midY < b.box.bottom

instance [DecidableEq α] (m : SurfaceMap α) (w b x : Node α) : Decidable (m.Between w b x) :=
  decidable_of_iff (x ∈ m.root.leaves ∧ x.atom = true ∧ x.kind.separates = true ∧ x ≠ w ∧
      w.related x = false ∧ w.box.right ≤ x.box.left ∧ x.box.right ≤ b.box.left ∧
      b.box.top < x.box.midY ∧ x.box.midY < b.box.bottom)
    ⟨fun ⟨hleaf, hatom, hseparates, hother, hunrelated, hright, hleft, hbeside⟩ =>
      ⟨hleaf, hatom, hseparates, hother, hunrelated, hright, hleft, hbeside⟩,
      fun h => ⟨h.leaf, h.atom, h.separates, h.other, h.unrelated, h.right, h.left, h.beside⟩⟩

/-- Nothing stands between a whole number and the bar that it is joined with. -/
def WholesAdjacent (m : SurfaceMap α) : Prop :=
  ∀ w ∈ m.atoms, ∀ b ∈ m.atoms, w.kind = .mixedNumber → w.marks.bar = some b.id →
    ∀ x, ¬m.Between w b x

section

variable {t : Tolerances Rat} {ns : List (Node Rat)} {r : Findings Rat} {m : SurfaceMap Rat}
  {w b x : Node Rat}

/-- What stands between a whole number and its bar is narrower than the gap. -/
theorem OnceRefined.width_lt_of_between (h : OnceRefined t ns r m) (hw : w ∈ m.atoms)
    (hb : b ∈ m.atoms) (hkind : w.kind = .mixedNumber) (hbar : w.marks.bar = some b.id)
    (hx : m.Between w b x) : x.box.right - x.box.left < t.mixedGap := by
  obtain ⟨c, hc, -, hcbar, hfollows⟩ := h.exists_bar hw hkind
  obtain rfl := h.eq_of_id hc hb (Option.some.inj (hcbar.symm.trans hbar))
  obtain ⟨-, hgap, -, -⟩ := follows_iff.1 hfollows
  have hright := hx.right
  have hleft := hx.left
  calc x.box.right - x.box.left ≤ c.box.left - w.box.right := by linarith
    _ < t.mixedGap := hgap

end

/-- Wholes are adjacent to their bars exactly when nothing narrower than the gap stands
between a number that is no part and the first bar after it. -/
theorem wholesAdjacent_iff (t : Tolerances Rat) (container : Address) (layout : Layout Rat) :
    let m := (build t container layout).enhance t
    WholesAdjacent m ↔ ∀ w ∈ m.atoms, ∀ b ∈ m.atoms, w.kind.isNumber = true →
      w.isMixedPart = false → m.barAfter? t.mixedGap w = some b →
        ∀ x, x.box.right - x.box.left < t.mixedGap → ¬m.Between w b x := by
  obtain ⟨ns, r, h⟩ := exists_onceRefined_build t container layout
  intro m
  change OnceRefined t ns r m at h
  clear_value m
  constructor
  · intro hadjacent w hw b hb hnumber hfree hbar x _
    obtain ⟨hkind, hmark⟩ := (h.joins_iff hw hb).2 ⟨hnumber, hfree, hbar⟩
    exact hadjacent w hw b hb hkind hmark x
  · intro hfirst w hw b hb hkind hmark x hx
    obtain ⟨hnumber, hfree, hbar⟩ := (h.joins_iff hw hb).1 ⟨hkind, hmark⟩
    exact hfirst w hw b hb hnumber hfree hbar x (h.width_lt_of_between hw hb hkind hmark hx) hx

/-- Two plus one third, in print so small that the sign fits into the gap. -/
def smallSum : Layout Rat :=
  let page : Box Rat := ⟨0, 0, 25, 30⟩
  .node ⟨["katex"], "", page, []⟩ [.node ⟨[formulaClass], "", page, []⟩
    [.node ⟨[groupClass], "", page, []⟩
      [.node ⟨["mord"], "2", ⟨0, 10, 5, 20⟩, []⟩ [],
       .node ⟨["mbin"], "+", ⟨9, 10, 14, 20⟩, []⟩ [],
       .node ⟨["mfrac"], "", ⟨19, 4, 24, 26⟩, []⟩
        [.node ⟨["mord"], "1", ⟨19, 4, 24, 14⟩, []⟩ [],
         .node ⟨["frac-line"], "", ⟨19, 59 / 4, 24, 61 / 4⟩, []⟩ [],
         .node ⟨["mord"], "3", ⟨19, 16, 24, 26⟩, []⟩ []]]]]

/-- The two is joined with the bar behind the sign. -/
theorem not_forall_wholesAdjacent :
    ¬ ∀ (container : Address) (layout : Layout Rat),
      WholesAdjacent ((build .standard container layout).enhance .standard) := by
  intro h
  have hjoined : ∃ w ∈ ((build .standard [] smallSum).enhance .standard).atoms,
      ∃ b ∈ ((build .standard [] smallSum).enhance .standard).atoms,
      ∃ x ∈ ((build .standard [] smallSum).enhance .standard).root.leaves,
        w.kind = .mixedNumber ∧ w.marks.bar = some b.id ∧
          ((build .standard [] smallSum).enhance .standard).Between w b x := by
    decide +kernel
  obtain ⟨w, hw, b, hb, x, -, hkind, hmark, hx⟩ := hjoined
  exact h [] smallSum w hw b hb hkind hmark x hx

end SurfaceMap
end FormulaMap

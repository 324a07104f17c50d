/-
Points in boxes, and boxes in boxes.

A box in another one has no larger area, as long as both areas are numbers.  `Measures`
says this of the coordinates.  Over the rationals it is monotonicity of the product.  Of
floats it is true as well: differences and products are rounded, rounding is monotone, and
a length that is cut off at zero is a number even where the sides have no difference.
-/
import FormulaMap.Proofs.Geometry.Comparing
import FormulaMap.Proofs.Number.Operations

namespace FormulaMap

section
variable {α : Type} [Coordinate α]

namespace Box

theorem contains_iff {b : Box α} {x y slack : α} : b.contains x y slack = true ↔
    (b.left ≤ x ∧ x ≤ b.right) ∧ b.top - slack ≤ y ∧ y ≤ b.bottom + slack := by
  rw [contains, Bool.and_eq_true, Bool.and_eq_true, Bool.and_eq_true, decide_eq_true_iff,
    decide_eq_true_iff, decide_eq_true_iff, decide_eq_true_iff, and_assoc]

/-- All of a box lies in another one. -/
structure Within (inner outer : Box α) : Prop where
  left : outer.left ≤ inner.left
  top : outer.top ≤ inner.top
  right : inner.right ≤ outer.right
  bottom : inner.bottom ≤ outer.bottom

theorem within_iff {inner outer : Box α} : inner.Within outer ↔
    (outer.left ≤ inner.left ∧ outer.top ≤ inner.top) ∧
      inner.right ≤ outer.right ∧ inner.bottom ≤ outer.bottom :=
  ⟨fun ⟨hl, ht, hr, hb⟩ => ⟨⟨hl, ht⟩, hr, hb⟩, fun ⟨⟨hl, ht⟩, hr, hb⟩ => ⟨hl, ht, hr, hb⟩⟩

instance (inner outer : Box α) : Decidable (inner.Within outer) :=
  decidable_of_iff _ within_iff.symm

end Box

end

/-- Areas that are numbers grow with the boxes. -/
class Measures (α : Type) [Coordinate α] : Prop extends Compares α where
  area_le : ∀ {inner outer : Box α}, inner.Within outer → IsNumber inner.area →
    IsNumber outer.area → inner.area ≤ outer.area

/-! ## Exact coordinates -/

namespace Box

theorem width_eq_max (b : Box Rat) : b.width = max 0 (b.right - b.left) :=
  Coordinate.larger_eq_max 0 (b.right - b.left)

theorem height_eq_max (b : Box Rat) : b.height = max 0 (b.bottom - b.top) :=
  Coordinate.larger_eq_max 0 (b.bottom - b.top)

theorem Within.area_le {inner outer : Box Rat} (h : inner.Within outer) :
    inner.area ≤ outer.area := by
  have hwidth : inner.width ≤ outer.width := by
    rw [width_eq_max, width_eq_max]
    exact max_le_max_left 0 (sub_le_sub h.right h.left)
  have hheight : inner.height ≤ outer.height := by
    rw [height_eq_max, height_eq_max]
    exact max_le_max_left 0 (sub_le_sub h.bottom h.top)
  have hnonneg : 0 ≤ inner.height := by
    rw [height_eq_max]
    exact le_max_left 0 _
  have hpos : 0 ≤ outer.width := by
    rw [width_eq_max]
    exact le_max_left 0 _
  exact mul_le_mul hwidth hheight hnonneg hpos

end Box

instance : Measures Rat where
  area_le h _ _ := h.area_le

/-! ## Floats -/

namespace Binary64

open Coordinate

variable {a b a' b' d : Float}

theorem isValue_zero : IsValue (ofNat 0) 0 := Stands.zero .positive

theorem zero_lt_iff : ofNat 0 < d ↔ ∃ z, IsValue d z ∧ 0 < z := by
  rw [lt_iff]
  constructor
  · rintro ⟨x, z, hx, hz, hlt⟩
    rw [hx.unique isValue_zero] at hlt
    exact ⟨z, hz, hlt⟩
  · rintro ⟨z, hz, hlt⟩
    exact ⟨0, z, isValue_zero, hz, hlt⟩

/-- A length that is cut off at zero is always a number. -/
theorem larger_zero_value (d : Float) : ∃ u, IsValue (larger (ofNat 0) d) u ∧ 0 ≤ u := by
  by_cases hpos : ofNat 0 < d
  · obtain ⟨z, hz, hlt⟩ := zero_lt_iff.1 hpos
    rw [larger, if_pos hpos]
    exact ⟨z, hz, hlt.le⟩
  · rw [larger, if_neg hpos]
    exact ⟨0, isValue_zero, le_rfl⟩

/-- A range is no longer than one that it lies in, also after rounding. -/
theorem larger_sub_mono (ha : a' ≤ a) (hb : b ≤ b') :
    ∃ u v, IsValue (larger (ofNat 0) (b - a)) u ∧ IsValue (larger (ofNat 0) (b' - a')) v ∧
      0 ≤ u ∧ u ≤ v := by
  by_cases hpos : ofNat 0 < b - a
  · obtain ⟨x', x, hx', hx, hxx⟩ := le_iff.1 ha
    obtain ⟨y, y', hy, hy', hyy⟩ := le_iff.1 hb
    obtain ⟨z, hz, hlt⟩ := zero_lt_iff.1 hpos
    obtain ⟨hnone, -⟩ | ⟨w, hw, hrounds⟩ := sub_value hy hx
    · exact absurd hz (hnone z)
    obtain rfl := hw.unique hz
    -- the exact length is positive, since what is rounded from it is
    have hxy : x < y := by
      by_contra hle
      exact not_le.2 hlt (hrounds.mono rounds_zero (EReal.sub_nonpos.2 (not_lt.1 hle)))
    obtain ⟨-, heq⟩ | ⟨v, hv, hrounds'⟩ := sub_value hy' hx'
    · exact absurd (hxx.trans_lt (hxy.trans_le hyy)) (not_lt.2 heq.le)
    have hle : w ≤ v := hrounds.mono hrounds' (EReal.sub_le_sub hyy hxx)
    rw [larger, larger, if_pos hpos, if_pos (zero_lt_iff.2 ⟨v, hv, hlt.trans_le hle⟩)]
    exact ⟨w, v, hz, hv, hlt.le, hle⟩
  · obtain ⟨v, hv, hnonneg⟩ := larger_zero_value (b' - a')
    rw [larger, if_neg hpos]
    exact ⟨0, v, isValue_zero, hv, le_rfl, hnonneg⟩

end Binary64

instance : Measures Float where
  area_le := by
    intro inner outer h hinner houter
    obtain ⟨u, v, hu, hv, hu0, huv⟩ := Binary64.larger_sub_mono h.left h.right
    obtain ⟨u', v', hu', hv', hu0', huv'⟩ := Binary64.larger_sub_mono h.top h.bottom
    obtain ⟨z, -, hz, -, -⟩ := Binary64.le_iff.1 hinner
    obtain ⟨w, -, hw, -, -⟩ := Binary64.le_iff.1 houter
    have hproduct : u * u' ≤ v * v' := mul_le_mul huv huv' hu0' (hu0.trans huv)
    exact Binary64.le_iff.2 ⟨z, w, hz, hw,
      (Binary64.mul_value hu hu' hz).mono (Binary64.mul_value hv hv' hw) hproduct⟩

end FormulaMap

/-
Boxes in a row.

Boxes stand side by side when each starts where the one before it ends (`Abut`).  Such boxes
tile a box if they have its height and share its width evenly: then the points in them are
the points in the box, even if the box has its sides the wrong way round and there are none.
The columns that a box is sliced into tile it (`tiles_slices`).
-/
import FormulaMap.Proofs.Geometry.Boxes
import Mathlib.Tactic.FieldSimp
import Mathlib.Tactic.Ring

namespace FormulaMap
namespace Box

/-- From `left` to `right`, each box starts where the one before it ends. -/
def Abut (left : Rat) : List (Box Rat) → Rat → Prop
  | [], right => left = right
  | b :: bs, right => b.left = left ∧ Abut b.right bs right

/-- Boxes side by side that share the width of a box evenly and cover it exactly. -/
structure Tiles (bs : List (Box Rat)) (b : Box Rat) : Prop where
  abut : Abut b.left bs b.right
  width : ∀ c ∈ bs, c.right - c.left = (b.right - b.left) / bs.length
  band : ∀ c ∈ bs, c.top = b.top ∧ c.bottom = b.bottom
  union : ∀ x y, b.contains x y 0 = true ↔ ∃ c ∈ bs, c.contains x y 0 = true

variable {b c : Box Rat} {bs : List (Box Rat)} {left right x y slack : Rat}

/-- A point stays in a box whose slack is taken up. -/
theorem contains_of_le {slack' : Rat} (h : b.contains x y slack = true) (hle : slack ≤ slack') :
    b.contains x y slack' = true := by
  rw [contains_iff] at h ⊢
  exact ⟨h.1, by linarith, by linarith⟩

theorem contains_relativeTo (origin : Box Rat) (h : b.contains x y slack = true) :
    (b.relativeTo origin).contains (x - origin.left) (y - origin.top) slack = true := by
  rw [contains_iff] at h ⊢
  obtain ⟨⟨hleft, hright⟩, htop, hbottom⟩ := h
  refine ⟨⟨sub_le_sub_right hleft _, sub_le_sub_right hright _⟩, ?_, ?_⟩
  · show b.top - origin.top - slack ≤ y - origin.top
    linarith
  · show y - origin.top ≤ b.bottom - origin.top + slack
    linarith

/-! ## Side by side -/

/-- Between the ends of boxes side by side there is no gap. -/
theorem Abut.exists_mem (h : Abut left bs right) (hne : bs ≠ []) (hleft : left ≤ x)
    (hright : x ≤ right) : ∃ c ∈ bs, c.left ≤ x ∧ x ≤ c.right := by
  induction bs generalizing left with
  | nil => exact absurd rfl hne
  | cons b bs ih =>
    obtain ⟨rfl, hrest⟩ := h
    by_cases hx : x ≤ b.right
    · exact ⟨b, List.mem_cons_self, hleft, hx⟩
    · cases bs with
      | nil => exact absurd (hright.trans_eq (Eq.symm hrest)) hx
      | cons c cs =>
        obtain ⟨d, hd, hin⟩ := ih hrest (List.cons_ne_nil c cs) (not_le.1 hx).le
        exact ⟨d, List.mem_cons_of_mem b hd, hin⟩

theorem Abut.le (h : Abut left bs right) (hbs : ∀ c ∈ bs, c.left ≤ c.right) : left ≤ right := by
  induction bs generalizing left with
  | nil => exact le_of_eq h
  | cons b bs ih =>
    obtain ⟨rfl, hrest⟩ := h
    rw [List.forall_mem_cons] at hbs
    exact hbs.1.trans (ih hrest hbs.2)

/-- And none of them reaches over the ends, if they are the right way round. -/
theorem Abut.within (h : Abut left bs right) (hbs : ∀ c ∈ bs, c.left ≤ c.right) (hc : c ∈ bs) :
    left ≤ c.left ∧ c.right ≤ right := by
  induction bs generalizing left with
  | nil => exact absurd hc List.not_mem_nil
  | cons b bs ih =>
    obtain ⟨rfl, hrest⟩ := h
    rw [List.forall_mem_cons] at hbs
    rcases List.mem_cons.1 hc with rfl | hc
    · exact ⟨le_refl _, hrest.le hbs.2⟩
    · obtain ⟨hleft, hright⟩ := ih hrest hbs.2 hc
      exact ⟨hbs.1.trans hleft, hright⟩

/-- Boxes side by side with the right sizes cover the box. -/
theorem tiles_of_abut (hne : bs ≠ []) (habut : Abut b.left bs b.right)
    (hwidth : ∀ c ∈ bs, c.right - c.left = (b.right - b.left) / bs.length)
    (hband : ∀ c ∈ bs, c.top = b.top ∧ c.bottom = b.bottom) : Tiles bs b := by
  refine ⟨habut, hwidth, hband, fun x y => ⟨fun h => ?_, ?_⟩⟩
  · rw [contains_iff] at h
    obtain ⟨c, hc, hin⟩ := habut.exists_mem hne h.1.1 h.1.2
    refine ⟨c, hc, contains_iff.2 ⟨hin, ?_⟩⟩
    rw [(hband c hc).1, (hband c hc).2]
    exact h.2
  · rintro ⟨c, hc, h⟩
    rw [contains_iff] at h
    -- one of them has a point in it, so none has its sides the wrong way round
    have hsides : ∀ d ∈ bs, d.left ≤ d.right := by
      intro d hd
      have hsame := (hwidth c hc).trans (hwidth d hd).symm
      linarith [h.1.1, h.1.2]
    obtain ⟨hleft, hright⟩ := habut.within hsides hc
    refine contains_iff.2 ⟨⟨hleft.trans h.1.1, h.1.2.trans hright⟩, ?_⟩
    rw [← (hband c hc).1, ← (hband c hc).2]
    exact h.2

/-! ## Slices -/

theorem slice_eq {index count : Nat} (hcount : 0 < count) : b.slice index count =
    ⟨b.left + (b.right - b.left) / count * index, b.top,
      b.left + (b.right - b.left) / count * index + (b.right - b.left) / count, b.bottom⟩ := by
  rw [slice, if_neg (Nat.pos_iff_ne_zero.1 hcount)]
  rfl

/-- The columns from `index` on, up to a further one. -/
theorem abut_slices {count : Nat} (hcount : 0 < count) (index length : Nat) :
    Abut (b.left + (b.right - b.left) / count * index)
      ((List.range' index length).map fun i => b.slice i count)
      (b.left + (b.right - b.left) / count * (index + length : Nat)) := by
  induction length generalizing index with
  | zero => rfl
  | succ length ih =>
    rw [List.range'_succ, List.map_cons, slice_eq hcount]
    refine ⟨rfl, ?_⟩
    have hnext := ih (index + 1)
    have hstart : b.left + (b.right - b.left) / count * ((index + 1 : Nat) : Rat) =
        b.left + (b.right - b.left) / count * index + (b.right - b.left) / count := by
      push_cast
      ring
    have hend : index + 1 + length = index + (length + 1) := by omega
    rwa [hstart, hend] at hnext

theorem tiles_slices (b : Box Rat) {count : Nat} (hcount : 0 < count) :
    Tiles ((List.range count).map fun i => b.slice i count) b := by
  have hne : (List.range count).map (fun i => b.slice i count) ≠ [] := by
    rw [Ne, List.map_eq_nil_iff, List.range_eq_nil]
    omega
  refine tiles_of_abut hne ?_ ?_ ?_
  · have habut := abut_slices (b := b) hcount 0 count
    have hcount' : (count : Rat) ≠ 0 := by exact_mod_cast hcount.ne'
    have hend : b.left + (b.right - b.left) / count * ((0 + count : Nat) : Rat) = b.right := by
      rw [Nat.zero_add]
      field_simp
      ring
    rwa [hend, Nat.cast_zero, mul_zero, add_zero, ← List.range_eq_range'] at habut
  · intro c hc
    obtain ⟨i, -, rfl⟩ := List.mem_map.1 hc
    rw [slice_eq hcount, List.length_map, List.length_range]
    ring
  · intro c hc
    obtain ⟨i, -, rfl⟩ := List.mem_map.1 hc
    rw [slice_eq hcount]
    exact ⟨rfl, rfl⟩

end Box
end FormulaMap

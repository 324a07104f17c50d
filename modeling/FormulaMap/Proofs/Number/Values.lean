/-
Floats as extended real numbers.

An unpacked float stands for an extended real number (`Stands`) unless it is not-a-number.
The mantissa and the exponent of a finite one are `Canonical`: the exponent is the one that
the size calls for, and so the larger exponent is that of the larger number.  This is why
floats can be compared field by field (`compare_of_stands`).
-/
import FormulaMap.Proofs.Number.Rounding
import Mathlib.Order.Compare

namespace FormulaMap
namespace Binary64

open Float
open Float.Model
open Float.Model.UnpackedFloat

/-- A mantissa and an exponent as the floats have them. -/
structure Canonical (m : Nat) (e : Int) : Prop where
  positive : 0 < m
  below : m < 2 ^ 53
  least : -1074 ≤ e
  normal : e = -1074 ∨ 2 ^ 52 ≤ m

section
variable {m n : Nat} {d e : Int}

theorem Canonical.size_pos (h : Canonical m e) : 0 < size m e :=
  mul_pos (by exact_mod_cast h.positive) (two_zpow_pos e)

theorem Canonical.coe_pos (h : Canonical m e) : (0 : EReal) < size m e := EReal.coe_pos.2 h.size_pos

theorem Canonical.neg_coe_lt_zero (h : Canonical m e) : -(size m e : EReal) < 0 := by
  rw [EReal.neg_lt_comm, neg_zero]
  exact h.coe_pos

theorem Canonical.onGrid (h : Canonical m e) : OnGrid (size m e) e where
  least := h.least
  below := by
    rw [size, two_zpow_add]
    have hbelow : (m : ℝ) < 2 ^ 53 := by exact_mod_cast h.below
    exact mul_lt_mul_of_pos_right (by exact_mod_cast hbelow) (two_zpow_pos e)
  above := by
    refine h.normal.imp id fun hm => ?_
    rw [size, two_zpow_add]
    have hm' : (2 : ℝ) ^ 52 ≤ m := by exact_mod_cast hm
    exact mul_le_mul_of_nonneg_right (by exact_mod_cast hm') (two_zpow_pos e).le

/-- What is canonical need not be rounded. -/
theorem Canonical.rounded (h : Canonical m e) : Rounded (size m e) (size m e) := by
  refine ⟨e, m, h.onGrid, ?_, rfl⟩
  rw [size, mul_div_cancel_right₀ _ (two_zpow_pos e).ne']
  exact nearest_natCast m

theorem Canonical.lt_of_lt (h : Canonical m d) (h' : Canonical n e) (hde : d < e) :
    size m d < size n e := by
  by_contra hle
  have := h'.onGrid.mono h.onGrid (not_lt.1 hle)
  omega

/-- Canonical numbers are compared by the exponent, then by the mantissa. -/
theorem Canonical.compare_eq (h : Canonical m d) (h' : Canonical n e) :
    (compare d e).then (compare m n) = compare (size m d) (size n e) := by
  rcases lt_trichotomy d e with hlt | rfl | hgt
  · rw [compare_lt_iff_lt.2 hlt, compare_lt_iff_lt.2 (h.lt_of_lt h' hlt)]
    rfl
  · rw [compare_eq_iff_eq.2 rfl, Ordering.eq_then]
    have hpos := two_zpow_pos d
    rcases lt_trichotomy m n with hlt | rfl | hgt
    · have hlt' : (m : ℝ) < n := by exact_mod_cast hlt
      have hsize : size m d < size n d := mul_lt_mul_of_pos_right hlt' hpos
      rw [compare_lt_iff_lt.2 hlt, compare_lt_iff_lt.2 hsize]
    · rw [compare_eq_iff_eq.2 rfl, compare_eq_iff_eq.2 rfl]
    · have hgt' : (n : ℝ) < m := by exact_mod_cast hgt
      have hsize : size n d < size m d := mul_lt_mul_of_pos_right hgt' hpos
      rw [compare_gt_iff_gt.2 hgt, compare_gt_iff_gt.2 hsize]
  · rw [compare_gt_iff_gt.2 hgt, compare_gt_iff_gt.2 (h'.lt_of_lt h hgt)]
    rfl

end

/-! ## Values -/

/-- A size with a sign. -/
noncomputable def signed : Sign → EReal → EReal
  | .positive, x => x
  | .negative, x => -x

@[simp] theorem signed_positive (x : EReal) : signed .positive x = x := rfl

@[simp] theorem signed_negative (x : EReal) : signed .negative x = -x := rfl

theorem signed_neg (s : Sign) (x : EReal) : signed (-s) x = -signed s x := by
  cases s
  · exact (neg_neg x).symm
  · rfl

@[simp] theorem signed_zero (s : Sign) : signed s 0 = 0 := by
  cases s
  · exact neg_zero
  · rfl

theorem signed_mul (s t : Sign) (x y : EReal) :
    signed (s * t) (x * y) = signed s x * signed t y := by
  cases s <;> cases t
  · show x * y = -x * -y
    rw [neg_mul_neg]
  · show -(x * y) = -x * y
    rw [neg_mul]
  · show -(x * y) = x * -y
    rw [mul_neg]
  · rfl

@[simp] theorem bot_lt_signed_coe (s : Sign) (r : ℝ) : ⊥ < signed s r := by
  cases s
  · exact EReal.bot_lt_coe (-r)
  · exact EReal.bot_lt_coe r

@[simp] theorem signed_coe_lt_top (s : Sign) (r : ℝ) : signed s r < ⊤ := by
  cases s
  · exact EReal.coe_lt_top (-r)
  · exact EReal.coe_lt_top r

/-- The greatest exponent of a float. -/
def maxExponent : Int := 971

/-- What an unpacked float stands for. -/
inductive Stands : UnpackedFloat → EReal → Prop
  | infinity (s : Sign) : Stands (.infinity s) (signed s ⊤)
  | zero (s : Sign) : Stands (.zero s) 0
  | finite (s : Sign) {m : Nat} {e : Int} (hm : 0 < m) (h : Canonical m e) (he : e ≤ maxExponent) :
      Stands (.finite s m e hm) (signed s (size m e : EReal))

variable {f g : UnpackedFloat} {x y : EReal} {m n : Nat} {d e : Int}

theorem Stands.unique (hx : Stands f x) (hy : Stands f y) : x = y := by
  cases hx <;> cases hy <;> rfl

theorem compare_coe (x y : ℝ) : compare (x : EReal) y = compare x y := by
  rcases lt_trichotomy x y with hlt | rfl | hgt
  · rw [compare_lt_iff_lt.2 hlt, compare_lt_iff_lt.2 (EReal.coe_lt_coe_iff.2 hlt)]
  · rw [compare_eq_iff_eq.2 rfl, compare_eq_iff_eq.2 rfl]
  · rw [compare_gt_iff_gt.2 hgt, compare_gt_iff_gt.2 (EReal.coe_lt_coe_iff.2 hgt)]

theorem compare_neg (x y : EReal) : compare (-x) (-y) = (compare x y).swap := by
  rcases lt_trichotomy x y with hlt | rfl | hgt
  · rw [compare_lt_iff_lt.2 hlt, compare_gt_iff_gt.2 (EReal.neg_lt_neg_iff.2 hlt)]
    rfl
  · rw [compare_eq_iff_eq.2 rfl, compare_eq_iff_eq.2 rfl]
    rfl
  · rw [compare_gt_iff_gt.2 hgt, compare_lt_iff_lt.2 (EReal.neg_lt_neg_iff.2 hgt)]
    rfl

/-- Floats are compared by what they stand for. -/
theorem compare_of_stands (hf : Stands f x) (hg : Stands g y) :
    f.compare g = some (compare x y) := by
  rcases hf with ⟨_ | _⟩ | _ | ⟨s, hm, h, he⟩ <;> rcases hg with ⟨_ | _⟩ | _ | ⟨t, hn, h', he'⟩
  -- the outer ones of the five classes
  any_goals first
    | exact congrArg some (compare_eq_iff_eq.2 rfl).symm
    | exact congrArg some (compare_lt_iff_lt.2 (by simp)).symm
    | exact congrArg some (compare_gt_iff_gt.2 (by simp)).symm
  -- the inner ones
  · cases t
    · exact congrArg some (compare_gt_iff_gt.2 h'.neg_coe_lt_zero).symm
    · exact congrArg some (compare_lt_iff_lt.2 h'.coe_pos).symm
  · cases s
    · exact congrArg some (compare_lt_iff_lt.2 h.neg_coe_lt_zero).symm
    · exact congrArg some (compare_gt_iff_gt.2 h.coe_pos).symm
  · cases s <;> cases t
    · rw [signed_negative, signed_negative, compare_neg, compare_coe, ← h.compare_eq h']
      rfl
    · exact congrArg some (compare_lt_iff_lt.2 (h.neg_coe_lt_zero.trans h'.coe_pos)).symm
    · exact congrArg some (compare_gt_iff_gt.2 (h'.neg_coe_lt_zero.trans h.coe_pos)).symm
    · rw [signed_positive, signed_positive, compare_coe, ← h.compare_eq h']
      rfl

end Binary64
end FormulaMap

/-
Rounding keeps the order.

A float has a mantissa of at most 53 bits, and a number is rounded to the nearest mantissa on
the grid that its size calls for (`OnGrid`), to the even one of two.  Neither step exchanges
two numbers: a larger number has no finer grid, and on one grid the nearest integers are in
order (`Nearest.mono`); where the grid changes, the mantissa 2^53 of the finer grid is 2^52 of
the next.  So rounding is monotone (`Rounded.mono`), and it stays so when what is too large
for a float becomes infinite (`delivered`).

What is shifted out of a mantissa leaves a round and a sticky bit.  The two tell where in its
interval a number lies (`Holds`), which is all that finding the nearest integer needs.
-/
import Mathlib.Data.EReal.Inv
import Mathlib.Tactic.Linarith
import Mathlib.Tactic.NormNum
import Mathlib.Tactic.Ring

namespace FormulaMap
namespace Binary64

open Float.Model
open Float.Model.UnpackedFloat

/-! ## The nearest integer -/

/-- The integer is nearest to the number, and even if there are two. -/
structure Nearest (x : ℝ) (n : Nat) : Prop where
  lower : n - 1 / 2 ≤ x
  upper : x ≤ n + 1 / 2
  even : x = n - 1 / 2 ∨ x = n + 1 / 2 → n % 2 = 0

theorem Nearest.mono {x y : ℝ} {n k : Nat} (hx : Nearest x n) (hy : Nearest y k) (h : x ≤ y) :
    n ≤ k := by
  by_contra hlt
  have hstep : (k : ℝ) + 1 ≤ n := by exact_mod_cast Nat.succ_le_of_lt (not_le.1 hlt)
  have hlower := hx.lower
  have hupper := hy.upper
  -- then both lie half-way between two integers, and these are both even
  have hx' : x = n - 1 / 2 := by linarith
  have hy' : y = k + 1 / 2 := by linarith
  have hnext : (n : ℝ) = k + 1 := by linarith
  have hn := hx.even (Or.inl hx')
  have hk := hy.even (Or.inr hy')
  have hsucc : n = k + 1 := by exact_mod_cast hnext
  omega

theorem nearest_natCast (n : Nat) : Nearest n n where
  lower := by linarith
  upper := by linarith
  even := by
    rintro (h | h) <;> linarith

/-! ## Round and sticky bits -/

/-- What a mantissa with its two further bits tells about a number. -/
def Holds (m : ExtendedMantissa) (x : ℝ) : Prop :=
  match m.roundBit, m.stickyBit with
  | false, false => x = m.mantissa
  | false, true => m.mantissa < x ∧ x < m.mantissa + 1 / 2
  | true, false => x = m.mantissa + 1 / 2
  | true, true => m.mantissa + 1 / 2 < x ∧ x < m.mantissa + 1

theorem Holds.half {m : ExtendedMantissa} {x : ℝ} (h : Holds m x) :
    Holds m.shiftRightOne (x / 2) := by
  obtain ⟨mantissa, roundBit, stickyBit⟩ := m
  obtain ⟨k, hk⟩ := Nat.even_or_odd' mantissa
  rcases hk with rfl | rfl
  · have hdiv : 2 * k / 2 = k := by omega
    cases roundBit <;> cases stickyBit <;>
      simp [Holds, ExtendedMantissa.shiftRightOne, hdiv] at h ⊢ <;>
      first | linarith | (constructor <;> linarith)
  · have hdiv : (2 * k + 1) / 2 = k := by omega
    cases roundBit <;> cases stickyBit <;>
      simp [Holds, ExtendedMantissa.shiftRightOne, hdiv] at h ⊢ <;>
      first | linarith | (constructor <;> linarith)

theorem Holds.shift {m : ExtendedMantissa} {x : ℝ} (h : Holds m x) (k : Nat) :
    Holds (m >>> k) (x / 2 ^ k) := by
  show Holds (k.repeat ExtendedMantissa.shiftRightOne m) _
  induction k with
  | zero => simpa [Nat.repeat] using h
  | succ k ih =>
    rw [Nat.repeat, pow_succ, ← div_div]
    exact ih.half

theorem Holds.nearest {m : ExtendedMantissa} {x : ℝ} (h : Holds m x) :
    Nearest x m.roundedMantissa := by
  obtain ⟨mantissa, roundBit, stickyBit⟩ := m
  cases roundBit <;> cases stickyBit
  · rw [Holds] at h
    subst h
    exact nearest_natCast mantissa
  · obtain ⟨hlower, hupper⟩ : (mantissa : ℝ) < x ∧ x < mantissa + 1 / 2 := h
    refine ⟨?_, ?_, ?_⟩
    all_goals simp only [ExtendedMantissa.roundedMantissa, ExtendedMantissa.accuracy,
      Accuracy.roundToNearestEven]
    · linarith
    · linarith
    · rintro (h | h) <;> linarith
  · have hx : x = (mantissa : ℝ) + 1 / 2 := h
    have hsum : mantissa % 2 = 0 ∨ mantissa % 2 = 1 := by omega
    refine ⟨?_, ?_, ?_⟩
    all_goals simp only [ExtendedMantissa.roundedMantissa, ExtendedMantissa.accuracy,
      Accuracy.roundToNearestEven]
    · rcases hsum with hsum | hsum <;> rw [hsum, hx] <;> push_cast <;> linarith
    · rcases hsum with hsum | hsum <;> rw [hsum, hx] <;> push_cast <;> linarith
    · intro _
      omega
  · obtain ⟨hlower, hupper⟩ : (mantissa : ℝ) + 1 / 2 < x ∧ x < mantissa + 1 := h
    refine ⟨?_, ?_, ?_⟩
    all_goals simp only [ExtendedMantissa.roundedMantissa, ExtendedMantissa.accuracy,
      Accuracy.roundToNearestEven]
    · push_cast
      linarith
    · push_cast
      linarith
    · push_cast
      rintro (h | h) <;> linarith

/-! ## Grids -/

/-- The number lies among the floats whose mantissas count powers of two with the exponent. -/
structure OnGrid (x : ℝ) (e : Int) : Prop where
  least : -1074 ≤ e
  below : x < 2 ^ (53 + e)
  above : e = -1074 ∨ (2 : ℝ) ^ (52 + e) ≤ x

theorem two_zpow_pos (e : Int) : (0 : ℝ) < 2 ^ e := zpow_pos (by norm_num) e

theorem two_zpow_le {d e : Int} (h : d ≤ e) : (2 : ℝ) ^ d ≤ 2 ^ e :=
  zpow_le_zpow_right₀ (by norm_num) h

theorem two_zpow_add (d e : Int) : (2 : ℝ) ^ (d + e) = 2 ^ d * 2 ^ e :=
  zpow_add₀ (by norm_num) d e

/-- A larger number has no finer grid. -/
theorem OnGrid.mono {x y : ℝ} {d e : Int} (hx : OnGrid x d) (hy : OnGrid y e) (h : x ≤ y) :
    d ≤ e := by
  by_contra hlt
  rcases hx.above with hleast | habove
  · have := hy.least
    omega
  · have hpow : (2 : ℝ) ^ (53 + e) ≤ 2 ^ (52 + d) := two_zpow_le (by omega)
    have hbelow := hy.below
    linarith

/-- The size of a finite float. -/
noncomputable def size (m : Nat) (e : Int) : ℝ := m * 2 ^ e

theorem size_zero (e : Int) : size 0 e = 0 := by
  rw [size, Nat.cast_zero, zero_mul]

/-- The number is rounded to a mantissa on its grid. -/
def Rounded (x w : ℝ) : Prop := ∃ e n, OnGrid x e ∧ Nearest (x / 2 ^ e) n ∧ w = size n e

section
variable {x : ℝ} {e : Int} {n : Nat}

theorem OnGrid.mantissa_le (hx : OnGrid x e) (hn : Nearest (x / 2 ^ e) n) : n ≤ 2 ^ 53 := by
  refine hn.mono (nearest_natCast (2 ^ 53)) ?_
  have hbelow := hx.below
  rw [two_zpow_add] at hbelow
  rw [div_le_iff₀ (two_zpow_pos e)]
  push_cast
  exact_mod_cast hbelow.le

theorem OnGrid.le_mantissa (hx : OnGrid x e) (hn : Nearest (x / 2 ^ e) n) :
    e = -1074 ∨ 2 ^ 52 ≤ n := by
  rcases hx.above with hleast | habove
  · exact Or.inl hleast
  · refine Or.inr ((nearest_natCast (2 ^ 52)).mono hn ?_)
    rw [two_zpow_add] at habove
    rw [le_div_iff₀ (two_zpow_pos e)]
    push_cast
    exact_mod_cast habove

end

theorem Rounded.mono {x y w z : ℝ} (hx : Rounded x w) (hy : Rounded y z) (h : x ≤ y) : w ≤ z := by
  obtain ⟨d, n, hd, hn, rfl⟩ := hx
  obtain ⟨e, k, he, hk, rfl⟩ := hy
  rcases (hd.mono he h).lt_or_eq with hlt | rfl
  · -- the coarser grid starts where the finer one ends
    have hk' : 2 ^ 52 ≤ k := by
      refine (he.le_mantissa hk).resolve_left ?_
      have := hd.least
      omega
    have hn' : (n : ℝ) ≤ 2 ^ 53 := by exact_mod_cast hd.mantissa_le hn
    have hk'' : (2 : ℝ) ^ 52 ≤ k := by exact_mod_cast hk'
    calc (n : ℝ) * 2 ^ d ≤ 2 ^ 53 * 2 ^ d := mul_le_mul_of_nonneg_right hn' (two_zpow_pos d).le
      _ = 2 ^ 52 * 2 ^ (1 + d) := by
        rw [two_zpow_add]
        norm_num
        ring
      _ ≤ 2 ^ 52 * 2 ^ e := mul_le_mul_of_nonneg_left (two_zpow_le (by omega)) (by norm_num)
      _ ≤ k * 2 ^ e := mul_le_mul_of_nonneg_right hk'' (two_zpow_pos e).le
  · have hle : n ≤ k := hn.mono hk (div_le_div_of_nonneg_right h (two_zpow_pos d).le)
    have hle' : (n : ℝ) ≤ k := by exact_mod_cast hle
    exact mul_le_mul_of_nonneg_right hle' (two_zpow_pos d).le

/-! ## Overflow -/

/-- What becomes of a size that has been rounded. -/
noncomputable def delivered (w : ℝ) : EReal := if w < 2 ^ (1024 : Int) then w else ⊤

theorem delivered_mono {w z : ℝ} (h : w ≤ z) : delivered w ≤ delivered z := by
  rw [delivered, delivered]
  split
  · split
    · exact EReal.coe_le_coe_iff.2 h
    · exact le_top
  · next hw => rw [if_neg fun hz => hw (h.trans_lt hz)]

theorem delivered_zero : delivered 0 = 0 := if_pos (two_zpow_pos 1024)

end Binary64
end FormulaMap

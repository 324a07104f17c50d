/-
Floats in 64 bits.

The mantissa of a canonical number has its 53rd bit exactly if the exponent is not the least
one, so that the bit need not be stored.  Packing changes nothing but a number that is too
large, which becomes infinite (`Carries.stands`); and whatever has been unpacked stands for
a number, or is not-a-number (`stands_unpack`).  Hence floats are compared by their values
(`le_iff`, `lt_iff`).
-/
import FormulaMap.Proofs.Number.Values
import Mathlib

namespace FormulaMap
namespace Binary64

open Float
open Float.Model
open Float.Model.UnpackedFloat

variable {f : UnpackedFloat} {m : Nat} {e : Int}

/-! ## The fields -/

theorem toNat_implicit (k : BitVec 52) : (1#1 ++ k).toNat = 2 ^ 52 + k.toNat := by
  rw [BitVec.toNat_append, ← Nat.shiftLeft_add_eq_or_of_lt k.isLt]
  rfl

section
variable {b : BitVec Format.binary64.numBits}

/-- The exponent field of a number with an implicit bit is neither empty nor full. -/
theorem unpack_normal (hpos : 0 < (unpackExponent b).toNat)
    (hlt : (unpackExponent b).toNat < 2047) :
    UnpackedFloat.unpack Format.binary64 b = .finite (Sign.ofBitVec (unpackSign b))
      (2 ^ 52 + (unpackMantissa b).toNat) ((unpackExponent b).toNat - 1075)
      (Nat.add_pos_left (Nat.two_pow_pos 52) _) := by
  have hfull : unpackExponent b ≠ -1#11 := fun h => by simp [h] at hlt
  have hempty : unpackExponent b ≠ 0#11 := fun h => by simp [h] at hpos
  rw [UnpackedFloat.unpack, if_neg hfull, if_neg hempty]
  congr 1
  exact toNat_implicit _

theorem unpack_subnormal (he : unpackExponent b = 0#11) (hpos : 0 < (unpackMantissa b).toNat) :
    UnpackedFloat.unpack Format.binary64 b =
      .finite (Sign.ofBitVec (unpackSign b)) (unpackMantissa b).toNat (-1074) hpos := by
  have hfull : unpackExponent b ≠ -1#11 := fun h => by simp [h] at he
  have hnonzero : unpackMantissa b ≠ 0#52 := fun h => by simp [h] at hpos
  rw [UnpackedFloat.unpack, if_neg hfull, if_pos he, dif_neg hnonzero, he]
  rfl

end

/-! ## Packing and unpacking -/

theorem unpack_pack_infinity (s : Sign) : (Model.pack (.infinity s)).unpack = .infinity s := by
  show UnpackedFloat.unpack Format.binary64 (packedInfinity Format.binary64 s) = _
  simp [packedInfinity, UnpackedFloat.unpack]

theorem unpack_pack_notANumber : (Model.pack .notANumber).unpack = .notANumber :=
  unpack_packedNaN

theorem unpack_pack_zero (s : Sign) : (Model.pack (.zero s)).unpack = .zero s := unpack_packedZero

theorem log2_eq {m : Nat} (h : 2 ^ 52 ≤ m) (h' : m < 2 ^ 53) : m.log2 = 52 := by
  have hm : m ≠ 0 := by omega
  have hle := (Nat.le_log2 hm).2 h
  have hlt := (Nat.log2_lt hm).2 h'
  omega

/-- What is canonical and not too large is not changed by packing. -/
theorem Canonical.unpack_pack (s : Sign) (hm : 0 < m) (h : Canonical m e) (he : e ≤ maxExponent) :
    (Model.pack (.finite s m e hm)).unpack = .finite s m e hm := by
  have hmax : e ≤ 971 := he
  have hleast := h.least
  have hbelow := h.below
  show UnpackedFloat.unpack Format.binary64 (if 2048 ≤ (e + 1023 + 52).toNat + 1 then _
    else if m.log2 + 1 = 53 then
      packComponents _ s (BitVec.ofNat 11 (e + 1023 + 52).toNat) (BitVec.ofNat 52 m)
    else packComponents _ s 0#11 (BitVec.ofNat 52 m)) = _
  rw [if_neg (by omega)]
  by_cases hnormal : 2 ^ 52 ≤ m
  · have hbiased : (BitVec.ofNat 11 (e + 1023 + 52).toNat).toNat = (e + 1023 + 52).toNat := by
      rw [BitVec.toNat_ofNat]
      omega
    have hmantissa : 2 ^ 52 + (BitVec.ofNat 52 m).toNat = m := by
      rw [BitVec.toNat_ofNat]
      omega
    have hlog : m.log2 + 1 = 53 := by rw [log2_eq hnormal hbelow]
    rw [if_pos hlog, unpack_normal]
    all_goals rw [unpackExponent_packComponents, hbiased]
    · simp only [unpackMantissa_packComponents, unpackSign_packComponents, Sign.ofBitVec_toBitVec,
        hmantissa]
      congr 1
      omega
    · omega
    · omega
  · have hsmall : m < 2 ^ 52 := not_le.1 hnormal
    have hlog : m.log2 + 1 ≠ 53 := by
      have := (Nat.log2_lt hm.ne').2 hsmall
      omega
    have hmantissa : (BitVec.ofNat 52 m).toNat = m := by
      rw [BitVec.toNat_ofNat]
      omega
    obtain rfl : e = -1074 := h.normal.resolve_right hnormal
    rw [if_neg hlog, unpack_subnormal]
    · simp only [unpackMantissa_packComponents, unpackSign_packComponents, Sign.ofBitVec_toBitVec,
        hmantissa]
    · rw [unpackExponent_packComponents]
    · rw [unpackMantissa_packComponents, hmantissa]
      exact hm

/-- What is canonical and too large becomes infinite. -/
theorem unpack_pack_overflow (s : Sign) (hm : 0 < m) (he : maxExponent < e) :
    (Model.pack (.finite s m e hm)).unpack = .infinity s := by
  have hmax : 971 < e := he
  rw [← unpack_pack_infinity s]
  show UnpackedFloat.unpack Format.binary64 (if 2048 ≤ (e + 1023 + 52).toNat + 1 then _
    else _) = _
  rw [if_pos (by omega)]
  rfl

theorem stands_unpack_bits (b : BitVec Format.binary64.numBits) :
    UnpackedFloat.unpack Format.binary64 b = .notANumber ∨
      ∃ x, Stands (UnpackedFloat.unpack Format.binary64 b) x := by
  by_cases hfull : unpackExponent b = -1#11
  · rw [UnpackedFloat.unpack, if_pos hfull]
    split
    · exact Or.inr ⟨_, .infinity _⟩
    · exact Or.inl rfl
  right
  have hexponent : (unpackExponent b).toNat < 2047 := by
    have hlt : (unpackExponent b).toNat < 2048 := BitVec.isLt _
    have hne : (unpackExponent b).toNat ≠ 2047 := fun h => hfull (BitVec.eq_of_toNat_eq h)
    omega
  have hmantissa : (unpackMantissa b).toNat < 2 ^ 52 := BitVec.isLt _
  rcases Nat.eq_zero_or_pos (unpackExponent b).toNat with hempty | hpos
  · have hempty' : unpackExponent b = 0#11 := BitVec.eq_of_toNat_eq hempty
    rcases Nat.eq_zero_or_pos (unpackMantissa b).toNat with hzero | hpos
    · have hzero' : unpackMantissa b = 0#52 := BitVec.eq_of_toNat_eq hzero
      rw [UnpackedFloat.unpack, if_neg hfull, if_pos hempty', dif_pos hzero']
      exact ⟨_, .zero _⟩
    · rw [unpack_subnormal hempty' hpos]
      exact ⟨_, .finite _ hpos ⟨hpos, by omega, le_rfl, Or.inl rfl⟩ (by decide)⟩
  · rw [unpack_normal hpos hexponent]
    refine ⟨_, .finite _ _ ⟨by positivity, by omega, by omega, Or.inr (Nat.le_add_right _ _)⟩ ?_⟩
    show _ ≤ (971 : Int)
    omega

/-- Every float but not-a-number stands for something. -/
theorem stands_unpack (a : Float.Model) : a.unpack = .notANumber ∨ ∃ x, Stands a.unpack x :=
  stands_unpack_bits a.toBits.toBitVec

/-! ## Overflow -/

theorem Canonical.delivered_of_le (h : Canonical m e) (he : e ≤ maxExponent) :
    delivered (size m e) = size m e := by
  have hmax : e ≤ 971 := he
  exact if_pos (h.onGrid.below.trans_le (two_zpow_le (by omega)))

theorem Canonical.delivered_of_lt (h : Canonical m e) (he : maxExponent < e) :
    delivered (size m e) = ⊤ := by
  have hmax : 971 < e := he
  have habove := h.onGrid.above.resolve_left (by omega)
  exact if_neg (not_lt.2 ((two_zpow_le (by omega)).trans habove))

/-- An unpacked float as the operations give it, with its sign and its size. -/
inductive Carries (s : Sign) : UnpackedFloat → ℝ → Prop
  | zero : Carries s (.zero s) 0
  | finite {m : Nat} {e : Int} (hm : 0 < m) (h : Canonical m e) :
      Carries s (.finite s m e hm) (size m e)

theorem Carries.stands {s : Sign} {w : ℝ} (h : Carries s f w) :
    Stands (Model.pack f).unpack (signed s (delivered w)) := by
  cases h with
  | zero =>
    rw [unpack_pack_zero, delivered_zero, signed_zero]
    exact .zero s
  | finite hm h =>
    rcases le_or_gt _ maxExponent with he | he
    · rw [h.unpack_pack s hm he, h.delivered_of_le he]
      exact .finite s hm h he
    · rw [unpack_pack_overflow s hm he, h.delivered_of_lt he]
      exact .infinity s

/-! ## Floats -/

/-- What a float stands for. -/
def IsValue (a : Float) (x : EReal) : Prop := Stands a.toModel.unpack x

variable {a b : Float} {x y : EReal}

theorem IsValue.unique (hx : IsValue a x) (hy : IsValue a y) : x = y := Stands.unique hx hy

theorem compare_eq_some_iff {o : Ordering} : a.toModel.unpack.compare b.toModel.unpack = some o ↔
    ∃ x y, IsValue a x ∧ IsValue b y ∧ compare x y = o := by
  constructor
  · intro h
    rcases stands_unpack a.toModel with ha | ⟨x, hx⟩
    · rw [ha] at h
      exact absurd h nofun
    rcases stands_unpack b.toModel with hb | ⟨y, hy⟩
    · generalize a.toModel.unpack = f at h hx
      rw [hb] at h
      cases hx <;> exact absurd h nofun
    · rw [compare_of_stands hx hy] at h
      exact ⟨x, y, hx, hy, Option.some.inj h⟩
  · rintro ⟨x, y, hx, hy, rfl⟩
    exact compare_of_stands hx hy

theorem le_iff : a ≤ b ↔ ∃ x y, IsValue a x ∧ IsValue b y ∧ x ≤ y := by
  show decide (a.toModel ≤ b.toModel) = true ↔ _
  rw [decide_eq_true_iff]
  show (a.toModel.unpack.compare b.toModel.unpack).any (·.isLE) = true ↔ _
  simp only [Option.any_eq_true, compare_eq_some_iff]
  constructor
  · rintro ⟨_, ⟨x, y, hx, hy, rfl⟩, hle⟩
    exact ⟨x, y, hx, hy, compare_le_iff_le.1 (Ordering.isLE_iff_ne_gt.1 hle)⟩
  · rintro ⟨x, y, hx, hy, hle⟩
    exact ⟨_, ⟨x, y, hx, hy, rfl⟩, Ordering.isLE_iff_ne_gt.2 (compare_le_iff_le.2 hle)⟩

theorem lt_iff : a < b ↔ ∃ x y, IsValue a x ∧ IsValue b y ∧ x < y := by
  show decide (a.toModel < b.toModel) = true ↔ _
  rw [decide_eq_true_iff]
  show (a.toModel.unpack.compare b.toModel.unpack == some .lt) = true ↔ _
  rw [beq_iff_eq, compare_eq_some_iff]
  simp only [compare_lt_iff_lt]

end Binary64
end FormulaMap

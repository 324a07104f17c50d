/-
Differences and products of floats are rounded.

The difference and the product of two unpacked floats are computed exactly and then
rounded, once by shifting the mantissa to the grid of the number and once more if it has
become too long by that.  What is packed stands for the rounded size, or for infinity if
there is no float that large.  So both are roundings (`Rounds`) of the operation on
extended real numbers, and rounding is monotone (`Rounds.mono`).
-/
import FormulaMap.Proofs.Number.Packing

namespace FormulaMap
namespace Binary64

open Float
open Float.Model
open Float.Model.UnpackedFloat

variable {f g : UnpackedFloat} {x y : EReal} {m n : Nat} {d e : Int} {s t : Sign}

/-! ## Rounding a mantissa -/

theorem targetExponent_eq (m : Nat) (e : Int) :
    Format.binary64.targetExponent (totalExponent m e) = max (m.log2 + 1 + e - 53) (-1074) := rfl

/-- The target exponent is that of the grid. -/
theorem onGrid_target (hm : 0 < m) (e : Int) :
    OnGrid (size m e) (Format.binary64.targetExponent (totalExponent m e)) := by
  rw [targetExponent_eq]
  have hupper : (m : ℝ) < 2 ^ ((m.log2 : Int) + 1) := by
    exact_mod_cast Nat.lt_log2_self (n := m)
  have hlower : (2 : ℝ) ^ (m.log2 : Int) ≤ m := by
    exact_mod_cast Nat.log2_self_le hm.ne'
  refine ⟨le_max_right _ _, ?_, ?_⟩
  · calc size m e < 2 ^ ((m.log2 : Int) + 1) * 2 ^ e :=
        mul_lt_mul_of_pos_right hupper (two_zpow_pos e)
      _ = 2 ^ ((m.log2 : Int) + 1 + e) := (two_zpow_add _ _).symm
      _ ≤ 2 ^ (53 + max ((m.log2 : Int) + 1 + e - 53) (-1074)) := two_zpow_le (by omega)
  · by_cases hsmall : (m.log2 : Int) + 1 + e - 53 ≤ -1074
    · exact Or.inl (max_eq_right hsmall)
    · right
      rw [max_eq_left (by omega)]
      calc (2 : ℝ) ^ (52 + ((m.log2 : Int) + 1 + e - 53)) = 2 ^ (m.log2 : Int) * 2 ^ e := by
            rw [← two_zpow_add]
            congr 1
            ring
        _ ≤ size m e := mul_le_mul_of_nonneg_right hlower (two_zpow_pos e).le

/-- Shifting to a coarser grid keeps the number. -/
theorem shiftToTargetExponent_spec
    (he : e ≤ Format.binary64.targetExponent (totalExponent m e)) :
    ∃ em, shiftToTargetExponent Format.binary64 m e .exact =
        (em, Format.binary64.targetExponent (totalExponent m e)) ∧
      Holds em (size m e / 2 ^ Format.binary64.targetExponent (totalExponent m e)) := by
  rw [shiftToTargetExponent, shiftToExponent]
  generalize Format.binary64.targetExponent (totalExponent m e) = target at he
  obtain ⟨k, hk⟩ := Int.le.dest he
  subst hk
  have hshift : (e + k - e).toNat = k := by omega
  refine ⟨ExtendedMantissa.ofMantissaAndAccuracy m .exact >>> k, by rw [hshift], ?_⟩
  have hvalue : size m e / 2 ^ (e + k : Int) = m / 2 ^ k := by
    rw [size, add_comm e, two_zpow_add, zpow_natCast, mul_div_mul_right _ _ (two_zpow_pos e).ne']
  rw [hvalue]
  have hexact : Holds (ExtendedMantissa.ofMantissaAndAccuracy m .exact) m := rfl
  exact hexact.shift k

/-- A mantissa that is short enough is not shifted again. -/
theorem shiftToTargetExponent_of_lt (hn : n < 2 ^ 53) (he : -1074 ≤ e) :
    shiftToTargetExponent Format.binary64 n e .exact = (⟨n, false, false⟩, e) := by
  have hlog : n.log2 ≤ 52 := by
    rcases Nat.eq_zero_or_pos n with rfl | hpos
    · decide
    · exact Nat.le_of_lt_succ ((Nat.log2_lt hpos.ne').2 hn)
  have hshift : (max ((n.log2 : Int) + 1 + e - 53) (-1074) - e).toNat = 0 := by omega
  rw [shiftToTargetExponent, shiftToExponent, targetExponent_eq]
  simp only [hshift, Nat.cast_zero, add_zero]
  rfl

/-- A mantissa that has become too long by rounding is halved. -/
theorem shiftToTargetExponent_carry (he : -1074 ≤ e) :
    shiftToTargetExponent Format.binary64 (2 ^ 53) e .exact = (⟨2 ^ 52, false, false⟩, e + 1) := by
  have hlog : (2 ^ 53).log2 = 53 := Nat.log2_two_pow
  have hshift : (max (((2 ^ 53).log2 : Int) + 1 + e - 53) (-1074) - e).toNat = 1 := by omega
  rw [shiftToTargetExponent, shiftToExponent, targetExponent_eq]
  simp only [hshift]
  rfl

theorem roundWithAccuracy_spec (s : Sign) (hm : 0 < m)
    (he : e ≤ Format.binary64.targetExponent (totalExponent m e)) :
    ∃ w, Rounded (size m e) w ∧
      Carries s (roundWithAccuracy Format.binary64 s m e .exact) w := by
  obtain ⟨em, hshift, hholds⟩ := shiftToTargetExponent_spec he
  have hgrid := onGrid_target hm e
  have hnearest := hholds.nearest
  generalize Format.binary64.targetExponent (totalExponent m e) = target at *
  refine ⟨size em.roundedMantissa target, ⟨target, _, hgrid, hnearest, rfl⟩, ?_⟩
  have hle := hgrid.mantissa_le hnearest
  have hnormal := hgrid.le_mantissa hnearest
  rw [roundWithAccuracy, hshift]
  dsimp only
  generalize em.roundedMantissa = n at *
  rcases hle.lt_or_eq with hlt | rfl
  · rw [shiftToTargetExponent_of_lt hlt hgrid.least]
    dsimp only
    split
    · next hzero =>
      rw [hzero, size_zero]
      exact .zero
    · next hzero =>
      exact .finite _ ⟨Nat.pos_of_ne_zero hzero, hlt, hgrid.least, hnormal⟩
  · rw [shiftToTargetExponent_carry hgrid.least]
    have hvalue : size (2 ^ 53) target = size (2 ^ 52) (target + 1) := by
      rw [size, size, two_zpow_add]
      push_cast
      ring
    rw [hvalue]
    have hleast := hgrid.least
    exact .finite _ ⟨by norm_num, by norm_num, by omega, Or.inr le_rfl⟩

theorem log2_shiftLeft (hm : 0 < m) (k : Nat) : (m <<< k).log2 = m.log2 + k := by
  have hlower := Nat.mul_le_mul_right (2 ^ k) (Nat.log2_self_le hm.ne')
  have hupper := Nat.mul_lt_mul_of_pos_right (Nat.lt_log2_self (n := m)) (Nat.two_pow_pos k)
  rw [Nat.shiftLeft_eq, Nat.log2_eq_iff (by positivity)]
  constructor
  · rwa [pow_add]
  · rwa [add_right_comm, pow_add]

theorem size_shiftLeft (m k : Nat) (e : Int) : size (m <<< k) (e - k) = size m e := by
  rw [size, size, Nat.shiftLeft_eq, Nat.cast_mul, Nat.cast_pow, Nat.cast_ofNat, ← zpow_natCast,
    mul_assoc, ← two_zpow_add, add_sub_cancel]

theorem round_spec (s : Sign) (hm : 0 < m) (e : Int) :
    ∃ w, Rounded (size m e) w ∧ Carries s (UnpackedFloat.round Format.binary64 s m e) w := by
  rw [UnpackedFloat.round, decreaseExponent]
  generalize htarget : Format.binary64.targetExponent (totalExponent m e) = target
  dsimp only
  generalize hk : (e - target).toNat = k
  rw [targetExponent_eq] at htarget
  -- the value does not change, and neither does the place of the first digit
  rw [← size_shiftLeft m k e]
  refine roundWithAccuracy_spec s ?_ ?_
  · rw [Nat.shiftLeft_eq]
    positivity
  · rw [targetExponent_eq, log2_shiftLeft hm]
    push_cast
    omega

/-! ## Rounding extended real numbers -/

/-- A size and what becomes of it. -/
inductive SizeRounds : EReal → EReal → Prop
  | top : SizeRounds ⊤ ⊤
  | real {u w : ℝ} (hu : 0 ≤ u) (h : Rounded u w) : SizeRounds u (delivered w)

theorem rounded_zero : Rounded 0 0 := by
  refine ⟨-1074, 0, ⟨le_rfl, two_zpow_pos _, Or.inl rfl⟩, ?_, ?_⟩
  · rw [zero_div]
    exact_mod_cast nearest_natCast 0
  · rw [size_zero]

theorem sizeRounds_zero : SizeRounds 0 0 := by
  have h := SizeRounds.real le_rfl rounded_zero
  rwa [delivered_zero] at h

section
variable {u v u' v' : EReal}

theorem SizeRounds.mono (h : SizeRounds u v) (h' : SizeRounds u' v') (hle : u ≤ u') : v ≤ v' := by
  cases h' with
  | top => exact le_top
  | real hw' hr' =>
    cases h with
    | top => exact absurd hle (not_le.2 (EReal.coe_lt_top _))
    | real hw hr => exact delivered_mono (hr.mono hr' (EReal.coe_le_coe_iff.1 hle))

theorem SizeRounds.nonneg (h : SizeRounds u v) : 0 ≤ u := by
  cases h with
  | top => exact le_top
  | real hu _ => exact EReal.coe_nonneg.2 hu

theorem SizeRounds.nonneg_rounded (h : SizeRounds u v) : 0 ≤ v := sizeRounds_zero.mono h h.nonneg

end

theorem zero_le_neg_iff {a : EReal} : 0 ≤ -a ↔ a ≤ 0 := by
  rw [EReal.le_neg, neg_zero]

/-- A number and what becomes of it: the size is rounded, and the sign stays. -/
def Rounds (x z : EReal) : Prop := ∃ s u v, SizeRounds u v ∧ x = signed s u ∧ z = signed s v

theorem rounds_zero : Rounds 0 0 := ⟨.positive, 0, 0, sizeRounds_zero, rfl, rfl⟩

/-- Rounding keeps the order. -/
theorem Rounds.mono {x y z w : EReal} (hx : Rounds x z) (hy : Rounds y w) (h : x ≤ y) : z ≤ w := by
  obtain ⟨s, u, v, huv, rfl, rfl⟩ := hx
  obtain ⟨t, u', v', huv', rfl, rfl⟩ := hy
  cases s <;> cases t <;> simp only [signed_negative, signed_positive] at h ⊢
  · exact EReal.neg_le_neg_iff.2 (huv'.mono huv (EReal.neg_le_neg_iff.1 h))
  · exact (EReal.neg_le_zero.2 huv.nonneg_rounded).trans huv'.nonneg_rounded
  · -- both are zero
    have hu : u ≤ 0 := h.trans (EReal.neg_le_zero.2 huv'.nonneg)
    have hu' : u' ≤ 0 := zero_le_neg_iff.1 (huv.nonneg.trans h)
    exact (huv.mono sizeRounds_zero hu).trans (zero_le_neg_iff.2 (huv'.mono sizeRounds_zero hu'))
  · exact huv.mono huv' h

/-- What is packed stands for the number, rounded. -/
def Packs (f : UnpackedFloat) (x : EReal) : Prop :=
  ∃ z, Stands (Model.pack f).unpack z ∧ Rounds x z

theorem packs_infinity (s : Sign) : Packs (.infinity s) (signed s ⊤) := by
  refine ⟨signed s ⊤, ?_, s, ⊤, ⊤, .top, rfl, rfl⟩
  rw [unpack_pack_infinity]
  exact .infinity s

theorem Carries.packs {u w : ℝ} (h : Carries s f w) (hu : 0 ≤ u) (hr : Rounded u w) :
    Packs f (signed s u) :=
  ⟨_, h.stands, s, u, _, .real hu hr, rfl, rfl⟩

theorem packs_zero (s : Sign) : Packs (.zero s) 0 := by
  have h := (Carries.zero (s := s)).packs le_rfl rounded_zero
  rwa [EReal.coe_zero, signed_zero] at h

theorem Canonical.packs (s : Sign) (hm : 0 < m) (h : Canonical m e) :
    Packs (.finite s m e hm) (signed s (size m e)) :=
  (Carries.finite hm h).packs h.size_pos.le h.rounded

/-! ## Differences and products -/

theorem signed_top_sub_coe (s t : Sign) (r : ℝ) : signed s ⊤ - signed t r = signed s ⊤ := by
  cases s <;> cases t <;> simp [← EReal.coe_neg]

theorem coe_sub_signed_top (s t : Sign) (r : ℝ) : signed s r - signed t ⊤ = signed (-t) ⊤ := by
  rw [signed_neg]
  cases s <;> cases t <;> simp [← EReal.coe_neg]

theorem coe_apply (s : Sign) (n : Nat) (e : Int) :
    (((s.apply n : Int) * 2 ^ e : ℝ) : EReal) = signed s (size n e) := by
  cases s
  · show (((-(n : Int) : Int) * 2 ^ e : ℝ) : EReal) = -(size n e : EReal)
    rw [← EReal.coe_neg, size, Int.cast_neg, Int.cast_natCast, neg_mul]
  · rfl

theorem normalize_packs (k e : Int) (t : Sign) :
    Packs (UnpackedFloat.normalize Format.binary64 k e t) ((k * 2 ^ e : ℝ) : EReal) := by
  have hpacks : ∀ (s : Sign) (n : Nat), 0 < n → k = s.apply n →
      Packs (UnpackedFloat.round Format.binary64 s n e) ((k * 2 ^ e : ℝ) : EReal) := by
    intro s n hn hk
    obtain ⟨w, hw, hcarries⟩ := round_spec s hn e
    rw [hk, coe_apply]
    exact hcarries.packs (mul_nonneg n.cast_nonneg (two_zpow_pos e).le) hw
  rw [UnpackedFloat.normalize]
  rcases lt_trichotomy k 0 with hlt | rfl | hgt
  · rw [compare_lt_iff_lt.2 hlt]
    refine hpacks .negative _ (by omega) ?_
    show k = -((-k).toNat : Int)
    omega
  · rw [compare_eq_iff_eq.2 rfl, Int.cast_zero, zero_mul, EReal.coe_zero]
    exact packs_zero t
  · rw [compare_gt_iff_gt.2 hgt]
    refine hpacks .positive _ (by omega) ?_
    show k = (k.toNat : Int)
    omega

theorem decreaseExponent_eq (m : Nat) {d e : Int} (h : d ≤ e) :
    ∃ k, decreaseExponent m e d = (k, d) ∧ size k d = size m e := by
  have hshift : e - (e - d).toNat = d := by omega
  refine ⟨m <<< (e - d).toNat, by rw [decreaseExponent, hshift], ?_⟩
  rw [← size_shiftLeft m (e - d).toNat e, hshift]

theorem sub_finite_packs (s t : Sign) (hm : 0 < m) (hn : 0 < n) (d e : Int) :
    Packs (UnpackedFloat.sub Format.binary64 (.finite s m d hm) (.finite t n e hn))
      (signed s (size m d) - signed t (size n e)) := by
  obtain ⟨k, hk, hsize⟩ := decreaseExponent_eq m (min_le_left d e)
  obtain ⟨k', hk', hsize'⟩ := decreaseExponent_eq n (min_le_right d e)
  rw [UnpackedFloat.sub, hk, hk']
  have hdifference : signed s (size m d) - signed t (size n e) =
      (((s.apply k - t.apply k' : Int) * 2 ^ min d e : ℝ) : EReal) := by
    rw [← hsize, ← hsize', ← coe_apply, ← coe_apply, ← EReal.coe_sub, Int.cast_sub, sub_mul]
  rw [hdifference]
  exact normalize_packs _ _ _

/-- The exact product has an exponent that is small enough for rounding. -/
theorem mul_finite_packs (s t : Sign) (hm : 0 < m) (hn : 0 < n) (h : Canonical m d)
    (h' : Canonical n e) :
    Packs (UnpackedFloat.mul Format.binary64 (.finite s m d hm) (.finite t n e hn))
      (signed (s * t) (size m d * size n e)) := by
  have hproduct : (size m d * size n e : EReal) = (size (m * n) (d + e) : ℝ) := by
    rw [← EReal.coe_mul, size, size, size, two_zpow_add, Nat.cast_mul, mul_mul_mul_comm]
  have htarget : d + e ≤ Format.binary64.targetExponent (totalExponent (m * n) (d + e)) := by
    rw [targetExponent_eq]
    have hlong : 2 ^ 52 ≤ m * n → 52 ≤ (m * n).log2 :=
      (Nat.le_log2 (Nat.mul_pos hm hn).ne').2
    rcases h.normal with hd | hm'
    · rcases h'.normal with he | hn'
      · omega
      · have := hlong (hn'.trans (Nat.le_mul_of_pos_left n hm))
        omega
    · have := hlong (hm'.trans (Nat.le_mul_of_pos_right m hn))
      omega
  obtain ⟨w, hw, hcarries⟩ := roundWithAccuracy_spec (s * t) (Nat.mul_pos hm hn) htarget
  rw [hproduct]
  refine hcarries.packs ?_ hw
  exact mul_nonneg (Nat.cast_nonneg _) (two_zpow_pos _).le

/-- The difference is rounded, unless it is one of equal infinities. -/
theorem sub_packs (hf : Stands f x) (hg : Stands g y) :
    (UnpackedFloat.sub Format.binary64 f g = .notANumber ∧ x = y) ∨
      Packs (UnpackedFloat.sub Format.binary64 f g) (x - y) := by
  cases hf with
  | infinity s =>
    cases hg with
    | infinity t =>
      cases s <;> cases t
      · exact Or.inl ⟨rfl, rfl⟩
      · exact Or.inr (packs_infinity .negative)
      · exact Or.inr (packs_infinity .positive)
      · exact Or.inl ⟨rfl, rfl⟩
    | zero t =>
      rw [sub_zero]
      exact Or.inr (packs_infinity s)
    | finite t hn h he =>
      rw [signed_top_sub_coe]
      exact Or.inr (packs_infinity s)
  | zero s =>
    cases hg with
    | infinity t =>
      rw [zero_sub, ← signed_neg]
      exact Or.inr (packs_infinity (-t))
    | zero t =>
      rw [sub_zero]
      cases s <;> cases t
      all_goals exact Or.inr (packs_zero _)
    | finite t hn h he =>
      rw [zero_sub, ← signed_neg]
      exact Or.inr (h.packs (-t) hn)
  | finite s hm h he =>
    cases hg with
    | infinity t =>
      rw [coe_sub_signed_top]
      exact Or.inr (packs_infinity (-t))
    | zero t =>
      rw [sub_zero]
      exact Or.inr (h.packs s hm)
    | finite t hn h' he' => exact Or.inr (sub_finite_packs s t hm hn _ _)

/-- The product is rounded, unless it is one of zero and infinity. -/
theorem mul_packs (hf : Stands f x) (hg : Stands g y) :
    UnpackedFloat.mul Format.binary64 f g = .notANumber ∨
      Packs (UnpackedFloat.mul Format.binary64 f g) (x * y) := by
  cases hf with
  | infinity s =>
    cases hg with
    | infinity t =>
      rw [← signed_mul, EReal.top_mul_top]
      exact Or.inr (packs_infinity (s * t))
    | zero t => exact Or.inl rfl
    | finite t hn h he =>
      rw [← signed_mul, EReal.top_mul_of_pos h.coe_pos]
      exact Or.inr (packs_infinity (s * t))
  | zero s =>
    cases hg with
    | infinity t => exact Or.inl rfl
    | zero t =>
      rw [zero_mul]
      exact Or.inr (packs_zero (s * t))
    | finite t hn h he =>
      rw [zero_mul]
      exact Or.inr (packs_zero (s * t))
  | finite s hm h he =>
    cases hg with
    | infinity t =>
      rw [← signed_mul, EReal.mul_top_of_pos h.coe_pos]
      exact Or.inr (packs_infinity (s * t))
    | zero t =>
      rw [mul_zero]
      exact Or.inr (packs_zero (s * t))
    | finite t hn h' he' =>
      rw [← signed_mul]
      exact Or.inr (mul_finite_packs s t hm hn h h')

/-! ## Floats -/

section
variable {a b : Float} {z : EReal}

theorem not_stands_notANumber : ¬Stands .notANumber z := nofun

/-- The difference of two floats is that of their values, rounded.  Equal infinities have
none. -/
theorem sub_value (ha : IsValue a x) (hb : IsValue b y) :
    ((∀ z, ¬IsValue (a - b) z) ∧ x = y) ∨ ∃ z, IsValue (a - b) z ∧ Rounds (x - y) z := by
  rcases sub_packs ha hb with ⟨hnan, heq⟩ | ⟨z, hz, hrounds⟩
  · refine Or.inl ⟨fun z hz => ?_, heq⟩
    have hz' : Stands (Model.pack (UnpackedFloat.sub Format.binary64 a.toModel.unpack
      b.toModel.unpack)).unpack z := hz
    rw [hnan, unpack_pack_notANumber] at hz'
    exact not_stands_notANumber hz'
  · exact Or.inr ⟨z, hz, hrounds⟩

/-- The product of two floats is that of their values, rounded. -/
theorem mul_value (ha : IsValue a x) (hb : IsValue b y) (hz : IsValue (a * b) z) :
    Rounds (x * y) z := by
  have hz' : Stands (Model.pack (UnpackedFloat.mul Format.binary64 a.toModel.unpack
    b.toModel.unpack)).unpack z := hz
  rcases mul_packs ha hb with hnan | ⟨w, hw, hrounds⟩
  · rw [hnan, unpack_pack_notANumber] at hz'
    exact absurd hz' not_stands_notANumber
  · rwa [hz'.unique hw]

end

end Binary64
end FormulaMap

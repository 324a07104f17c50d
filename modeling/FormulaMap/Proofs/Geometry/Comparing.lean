/-
Comparing coordinates.

Rationals are ordered.  Among floats there is one that cannot be compared with anything,
itself included, so `≤` is no order on them; but it is transitive, and `<` is its strict
part.  That much is `Compares`, and it is enough for choosing a least item.  All other
floats are numbers (`IsNumber`), and any two of these can be compared (`Orders`).  So
comparing by a coordinate, or by two of them in turn, ranks whatever has numbers there.  For
floats this holds because they are compared by the extended real numbers that they stand
for.
-/
import FormulaMap.Proofs.Geometry.Exact
import FormulaMap.Proofs.Number.Packing
import FormulaMap.Proofs.Order

namespace FormulaMap

/-- Comparing is transitive, and to be smaller is to be comparable one way only. -/
class Compares (α : Type) [Coordinate α] : Prop where
  lt_iff : ∀ {a b : α}, a < b ↔ a ≤ b ∧ ¬b ≤ a
  trans : ∀ {a b c : α}, a ≤ b → b ≤ c → a ≤ c

instance : Compares Rat where
  lt_iff := lt_iff_le_not_ge
  trans := le_trans

namespace Compares

variable {α : Type} [Coordinate α] [Compares α] {a b c : α}

theorem irrefl (a : α) : ¬a < a := by
  rw [lt_iff]
  exact fun h => h.2 h.1

theorem lt_of_le_of_lt (hab : a ≤ b) (hbc : b < c) : a < c := by
  rw [lt_iff] at hbc ⊢
  exact ⟨trans hab hbc.1, fun hca => hbc.2 (trans hca hab)⟩

theorem lt_of_lt_of_le (hab : a < b) (hbc : b ≤ c) : a < c := by
  rw [lt_iff] at hab ⊢
  exact ⟨trans hab.1 hbc, fun hca => hab.2 (trans hbc hca)⟩

theorem lt_trans (hab : a < b) (hbc : b < c) : a < c :=
  lt_of_le_of_lt (lt_iff.1 hab).1 hbc

theorem not_lt_of_le (hab : a ≤ b) : ¬b < a :=
  fun hba => (lt_iff.1 hba).2 hab

end Compares

/-! ## Numbers -/

section
variable {α : Type} [Coordinate α]

/-- Not-a-number is the one value that is not comparable with itself. -/
def IsNumber (x : α) : Prop := x ≤ x

instance (x : α) : Decidable (IsNumber x) := inferInstanceAs (Decidable (x ≤ x))

end

/-- What can be compared are the numbers, and these can all be compared. -/
class Orders (α : Type) [Coordinate α] : Prop extends Compares α where
  isNumber : ∀ {a b : α}, a ≤ b → IsNumber a ∧ IsNumber b
  total : ∀ {a b : α}, IsNumber a → IsNumber b → a ≤ b ∨ b ≤ a

instance : Orders Rat where
  isNumber _ := ⟨le_rfl, le_rfl⟩
  total _ _ := le_total _ _

theorem isNumber_rat (x : Rat) : IsNumber x := le_refl x

namespace Coordinate

variable {α : Type} [Coordinate α] {a b c : α}

theorem same_iff : same a b = true ↔ a ≤ b ∧ b ≤ a := by
  rw [same, Bool.and_eq_true, decide_eq_true_iff, decide_eq_true_iff]

theorem before_iff {a b : α × α} :
    before a b = true ↔ a.1 < b.1 ∨ same a.1 b.1 = true ∧ a.2 < b.2 := by
  rw [before, Bool.or_eq_true, Bool.and_eq_true, decide_eq_true_iff, decide_eq_true_iff]

variable [Orders α]

theorem not_lt_iff (ha : IsNumber a) (hb : IsNumber b) : ¬a < b ↔ b ≤ a := by
  refine ⟨fun hlt => ?_, Compares.not_lt_of_le⟩
  rcases Orders.total ha hb with hab | hba
  · exact Decidable.byContradiction fun hba => hlt (Compares.lt_iff.2 ⟨hab, hba⟩)
  · exact hba

theorem lt_or_same (h : a ≤ b) : a < b ∨ same a b = true := by
  by_cases hba : b ≤ a
  · exact Or.inr (same_iff.2 ⟨h, hba⟩)
  · exact Or.inl (Compares.lt_iff.2 ⟨h, hba⟩)

theorem before_eq_false_iff {a b : α × α} (ha : IsNumber a.1 ∧ IsNumber a.2)
    (hb : IsNumber b.1 ∧ IsNumber b.2) :
    before a b = false ↔ b.1 ≤ a.1 ∧ (a.1 ≤ b.1 → b.2 ≤ a.2) := by
  rw [Bool.eq_false_iff, Ne, before_iff, not_or, not_lt_iff ha.1 hb.1, not_and, same_iff,
    not_lt_iff ha.2 hb.2]
  exact and_congr_right fun hle => ⟨fun h hle' => h ⟨hle', hle⟩, fun h hle' => h hle'.1⟩

variable {ι : Type}

theorem ranks_of_key (key : ι → α) (hkey : ∀ i, IsNumber (key i)) :
    Ranks fun a b => decide (key a < key b) where
  asymm := by
    intro a b hab
    exact decide_eq_false (Compares.not_lt_of_le (Compares.lt_iff.1 (of_decide_eq_true hab)).1)
  trans := by
    intro a b c hab hbc
    rw [decide_eq_false_iff_not, not_lt_iff (hkey _) (hkey _)] at hab hbc ⊢
    exact Compares.trans hab hbc

theorem ranks_of_pair (key : ι → α × α) (hkey : ∀ i, IsNumber (key i).1 ∧ IsNumber (key i).2) :
    Ranks fun a b => before (key a) (key b) where
  asymm := by
    intro a b hab
    rw [before_eq_false_iff (hkey b) (hkey a)]
    rcases before_iff.1 hab with hlt | ⟨hsame, hlt⟩
    · exact ⟨(Compares.lt_iff.1 hlt).1, fun hle => absurd hlt (Compares.not_lt_of_le hle)⟩
    · exact ⟨(same_iff.1 hsame).1, fun _ => (Compares.lt_iff.1 hlt).1⟩
  trans := by
    intro a b c hab hbc
    rw [before_eq_false_iff (hkey _) (hkey _)] at hab hbc ⊢
    refine ⟨Compares.trans hab.1 hbc.1, fun hle => ?_⟩
    exact Compares.trans (hab.2 (Compares.trans hbc.1 hle)) (hbc.2 (Compares.trans hle hab.1))

end Coordinate

/-! ## Floats -/

instance : Orders Float where
  lt_iff := by
    intro a b
    show a < b ↔ a ≤ b ∧ ¬b ≤ a
    rw [Binary64.lt_iff, Binary64.le_iff, Binary64.le_iff]
    constructor
    · rintro ⟨x, y, hx, hy, hxy⟩
      refine ⟨⟨x, y, hx, hy, hxy.le⟩, ?_⟩
      rintro ⟨y', x', hy', hx', hyx⟩
      rw [hx'.unique hx, hy'.unique hy] at hyx
      exact absurd hxy (not_lt.2 hyx)
    · rintro ⟨⟨x, y, hx, hy, -⟩, hnot⟩
      exact ⟨x, y, hx, hy, not_le.1 fun hyx => hnot ⟨y, x, hy, hx, hyx⟩⟩
  trans := by
    intro a b c hab hbc
    obtain ⟨x, y, hx, hy, hxy⟩ := Binary64.le_iff.1 hab
    obtain ⟨y', z, hy', hz, hyz⟩ := Binary64.le_iff.1 hbc
    rw [hy'.unique hy] at hyz
    exact Binary64.le_iff.2 ⟨x, z, hx, hz, hxy.trans hyz⟩
  isNumber := by
    intro a b hab
    obtain ⟨x, y, hx, hy, -⟩ := Binary64.le_iff.1 hab
    exact ⟨Binary64.le_iff.2 ⟨x, x, hx, hx, le_rfl⟩, Binary64.le_iff.2 ⟨y, y, hy, hy, le_rfl⟩⟩
  total := by
    intro a b ha hb
    obtain ⟨x, -, hx, -⟩ := Binary64.le_iff.1 ha
    obtain ⟨y, -, hy, -⟩ := Binary64.le_iff.1 hb
    rcases le_total x y with hxy | hyx
    · exact Or.inl (Binary64.le_iff.2 ⟨x, y, hx, hy, hxy⟩)
    · exact Or.inr (Binary64.le_iff.2 ⟨y, x, hy, hx, hyx⟩)

end FormulaMap

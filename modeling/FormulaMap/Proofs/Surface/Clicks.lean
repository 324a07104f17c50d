/-
What a click is meant for.

A click hits an atom when it lies in the atom's box, for an operator also a little above or
below.  `hit?` finds an atom whenever there is one that is hit, and no atom that is hit is
smaller (`Resolved`).  Of an atom and one below it the lower is deeper, so it wins unless
its area is larger.  Where boxes lie in the boxes of their ancestors it never is, and the
innermost atom is found; the areas only have to be numbers.  All this holds of exact
coordinates and of floats, whose rounding keeps the order of areas (`Measures`).

That areas are numbers is a condition on floats.  `flatGroup` is a group of no height that
is wider than the largest float, so that its area is infinity times zero, which is
not-a-number.  Nothing is smaller than that, and a click on the numeral in the group is
taken for the group.
-/
import FormulaMap.Proofs.Geometry.Boxes
import FormulaMap.Proofs.Surface.Ancestors
import FormulaMap.Surface.Hit

namespace FormulaMap
namespace SurfaceMap

open Coordinate

variable {α : Type} [Coordinate α]

/-- A point of the page lies in the box of a node, or above or below it by the slack. -/
structure Hit (m : SurfaceMap α) (t : Tolerances α) (x y : α) (n : Node α) : Prop where
  left : n.box.left ≤ x - m.origin.left
  right : x - m.origin.left ≤ n.box.right
  top : n.box.top - slack t n ≤ y - m.origin.top
  bottom : y - m.origin.top ≤ n.box.bottom + slack t n

/-- The boxes of atoms lie in the boxes of the atoms above them. -/
def Enclosed (m : SurfaceMap α) : Prop :=
  ∀ a ∈ m.atoms, ∀ b ∈ m.atoms, a.isAbove b = true → b.box.Within a.box

instance (m : SurfaceMap α) : Decidable m.Enclosed :=
  inferInstanceAs (Decidable (∀ a ∈ m.atoms, ∀ b ∈ m.atoms, a.isAbove b = true → _))

/-- What is found for a point: an atom that is hit, none that is hit is smaller, and none
below it is hit if boxes lie in one another and have areas. -/
structure Resolved (m : SurfaceMap α) (t : Tolerances α) (x y : α) (a : Node α) : Prop where
  atom : a ∈ m.atoms
  hit : m.Hit t x y a
  smallest : ∀ b ∈ m.atoms, m.Hit t x y b → ¬b.box.area < a.box.area
  innermost : m.Enclosed → (∀ b ∈ m.atoms, m.Hit t x y b → IsNumber b.box.area) →
    ∀ b ∈ m.atoms, a.isAbove b = true → ¬m.Hit t x y b

variable {m : SurfaceMap α} {t : Tolerances α} {x y : α} {a b : Node α}

theorem hits_iff :
    hits t (x - m.origin.left) (y - m.origin.top) a = true ↔ m.Hit t x y a := by
  rw [hits, Box.contains_iff]
  constructor
  · intro h
    exact ⟨h.1.1, h.1.2, h.2.1, h.2.2⟩
  · intro h
    exact ⟨⟨h.left, h.right⟩, h.top, h.bottom⟩

instance : Decidable (m.Hit t x y a) := decidable_of_iff _ hits_iff

/-- The atoms that are hit are those that `hit?` chooses from. -/
theorem mem_hit_atoms :
    a ∈ m.atoms.filter (hits t (x - m.origin.left) (y - m.origin.top)) ↔
      a ∈ m.atoms ∧ m.Hit t x y a := by
  rw [List.mem_filter, hits_iff]

/-! ## Choosing by area and depth -/

theorem moreSpecific_iff : moreSpecific a b = true ↔ a.box.area < b.box.area ∨
    (a.box.area ≤ b.box.area ∧ b.box.area ≤ a.box.area) ∧ b.depth < a.depth := by
  simp only [moreSpecific, same, Bool.or_eq_true, Bool.and_eq_true, decide_eq_true_iff]

theorem moreSpecific_irrefl [Compares α] (a : Node α) : moreSpecific a a = false := by
  rw [Bool.eq_false_iff, Ne, moreSpecific_iff]
  rintro (harea | ⟨-, hdepth⟩)
  · exact Compares.irrefl _ harea
  · exact Nat.lt_irrefl _ hdepth

theorem moreSpecific_trans [Compares α] {c : Node α} (hab : moreSpecific a b = true)
    (hbc : moreSpecific b c = true) : moreSpecific a c = true := by
  rw [moreSpecific_iff] at hab hbc ⊢
  rcases hab with hab | ⟨⟨hab, hba⟩, hdepth⟩ <;> rcases hbc with hbc | ⟨⟨hbc, hcb⟩, hdepth'⟩
  · exact Or.inl (Compares.lt_trans hab hbc)
  · exact Or.inl (Compares.lt_of_lt_of_le hab hbc)
  · exact Or.inl (Compares.lt_of_le_of_lt hab hbc)
  · exact Or.inr ⟨⟨Compares.trans hab hbc, Compares.trans hcb hba⟩, Nat.lt_trans hdepth' hdepth⟩

/-- A lower node that is no larger is meant rather than the one above it. -/
theorem Ancestral.moreSpecific_of_isAbove [Compares α] (h : Ancestral m) (ha : a ∈ m.nodes)
    (hb : b ∈ m.nodes) (hab : a.isAbove b = true) (harea : b.box.area ≤ a.box.area) :
    moreSpecific b a = true := by
  rw [moreSpecific_iff]
  by_cases hle : a.box.area ≤ b.box.area
  · exact Or.inr ⟨⟨harea, hle⟩, h.depth_lt ha hb hab⟩
  · exact Or.inl (Compares.lt_iff.2 ⟨harea, hle⟩)

/-! ## What is found -/

theorem hit?_eq_none_iff : m.hit? t x y = none ↔ ∀ a ∈ m.atoms, ¬m.Hit t x y a := by
  rw [hit?, firstLeast_eq_none_iff, List.filter_eq_nil_iff]
  exact forall₂_congr fun a _ => not_congr hits_iff

theorem resolved_of_hit? [Measures α] (h : Ancestral m) (ha : m.hit? t x y = some a) :
    m.Resolved t x y a := by
  obtain ⟨hchosen, hleast⟩ := firstLeast_spec moreSpecific_irrefl moreSpecific_trans ha
  obtain ⟨hatom, hhit⟩ := mem_hit_atoms.1 hchosen
  have hnot : ∀ b ∈ m.atoms, m.Hit t x y b → ¬moreSpecific b a = true := fun b hb hhit =>
    Bool.eq_false_iff.1 (hleast b (mem_hit_atoms.2 ⟨hb, hhit⟩))
  refine ⟨hatom, hhit, fun b hb hbhit hless => ?_, fun henclosed hnumber b hb hab hbhit => ?_⟩
  · exact hnot b hb hbhit (moreSpecific_iff.2 (Or.inl hless))
  · have harea : b.box.area ≤ a.box.area :=
      Measures.area_le (henclosed a hatom b hb hab) (hnumber b hb hbhit) (hnumber a hatom hhit)
    exact hnot b hb hbhit (h.moreSpecific_of_isAbove (mem_nodes_of_mem_atoms hatom)
      (mem_nodes_of_mem_atoms hb) hab harea)

/-- A click that hits no atom resolves to none, and any other one to an atom that is hit, as
small as any that is, with no atom below it that is hit. -/
theorem hit?_resolves [Measures α] (h : Ancestral m) (t : Tolerances α) (x y : α) :
    (m.hit? t x y = none ↔ ∀ a ∈ m.atoms, ¬m.Hit t x y a) ∧
      ∀ a, m.hit? t x y = some a → m.Resolved t x y a :=
  ⟨hit?_eq_none_iff, fun _ ha => resolved_of_hit? h ha⟩

/-! ## A group without an area -/

/-- A seven in a group on a page. -/
def sevenIn (page group seven : Box α) : Layout α :=
  .node ⟨["katex"], "", page, []⟩ [.node ⟨[formulaClass], "", page, []⟩
    [.node ⟨[groupClass], "", group, []⟩ [.node ⟨["mord"], "7", seven, []⟩ []]]]

/-- A group of no height. -/
def thinGroup : SurfaceMap Float :=
  build .standard [] (sevenIn ⟨0, 0, 100, 20⟩ ⟨0, 10, 100, 10⟩ ⟨10, 10, 20, 10⟩)

/-- Both areas are zero, and the seven is deeper than the group that it is in. -/
theorem thinGroup_resolves : ∃ a, thinGroup.hit? .standard 15 10 = some a ∧
    thinGroup.Resolved .standard 15 10 a ∧ thinGroup.Enclosed ∧
      (∀ b ∈ thinGroup.atoms, IsNumber b.box.area) ∧ a.id = "num-2" := by
  have hfound : ∃ a ∈ thinGroup.hit? .standard 15 10, a.id = "num-2" := by decide +kernel
  obtain ⟨a, ha, hid⟩ := hfound
  have hresolves : _ ∧ ∀ a, thinGroup.hit? .standard 15 10 = some a → _ :=
    hit?_resolves (ancestral_build .standard [] _) .standard 15 10
  exact ⟨a, ha, hresolves.2 a ha, by decide +kernel, by decide +kernel, hid⟩

/-- A group of no height that is wider than the largest float. -/
def flatGroup : SurfaceMap Float :=
  build .standard [] (sevenIn ⟨0, 0, 100, 20⟩ ⟨-1e308, 10, 1e308, 10⟩ ⟨10, 10, 20, 10⟩)

/-- A click on the seven is taken for the group, although the seven lies in the group. -/
theorem not_forall_innermost : ¬ ∀ (m : SurfaceMap Float), Ancestral m → m.Enclosed →
    ∀ (t : Tolerances Float) (x y : Float) (a b : Node Float), m.hit? t x y = some a →
      b ∈ m.atoms → a.isAbove b = true → ¬m.Hit t x y b := by
  intro h
  have hgroup : flatGroup.Enclosed ∧ ∃ a ∈ flatGroup.hit? .standard 15 10,
      ∃ b ∈ flatGroup.atoms, a.isAbove b = true ∧ flatGroup.Hit .standard 15 10 b := by
    decide +kernel
  obtain ⟨henclosed, a, ha, b, hb, hab, hhit⟩ := hgroup
  exact h flatGroup (ancestral_build .standard [] _) henclosed .standard 15 10 a b ha hb hab hhit

end SurfaceMap
end FormulaMap

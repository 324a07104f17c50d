/-
Which records are boxes.

A record is a box when it has the four sides and nothing else, each side is a number or can be
taken for one, and the box is the right way round (`exists_ofJson_iff`).
-/
import FormulaMap.Geometry.Data
import FormulaMap.Proofs.Geometry.Comparing
import FormulaMap.Proofs.Record.Checking

namespace FormulaMap
namespace Box

/-- The right way round; a side that is no number is compared with nothing. -/
structure IsUpright (b : Box Float) : Prop where
  across : b.left ≤ b.right
  down : b.top ≤ b.bottom

instance (b : Box Float) : Decidable b.IsUpright :=
  decidable_of_iff (b.left ≤ b.right ∧ b.top ≤ b.bottom) ⟨fun h => ⟨h.1, h.2⟩, fun h => ⟨h.1, h.2⟩⟩

def HasSide (fs : Fields Json) (name : String) (x : Float) : Prop :=
  ∃ v, Fields.get? name fs = some v ∧ Field.float v = .ok x

structure HasSides (fs : Fields Json) (b : Box Float) : Prop where
  left : HasSide fs "left" b.left
  top : HasSide fs "top" b.top
  right : HasSide fs "right" b.right
  bottom : HasSide fs "bottom" b.bottom

/-- How the fields of a box can be at fault. -/
inductive FaultySides (fs : Fields Json) : Prop
  | unknown {f : String × Json} : f ∈ fs → f.1 ∉ sideNames → FaultySides fs
  | missing {name : String} : name ∈ sideNames → Fields.get? name fs = none → FaultySides fs
  | unfit {name : String} {v : Json} : name ∈ sideNames → Fields.get? name fs = some v →
      (∀ x, Field.float v ≠ .ok x) → FaultySides fs
  | inverted {b : Box Float} : HasSides fs b → b.right < b.left ∨ b.bottom < b.top → FaultySides fs

variable {fs : Fields Json} {b : Box Float}

theorem isInverted_iff : b.isInverted = true ↔ b.right < b.left ∨ b.bottom < b.top := by
  rw [isInverted, Bool.or_eq_true, decide_eq_true_eq, decide_eq_true_eq]

theorem IsUpright.isInverted_eq_false (h : b.IsUpright) : b.isInverted = false := by
  rw [Bool.eq_false_iff, ne_eq, isInverted_iff, not_or]
  exact ⟨fun hlt => (Compares.lt_iff.1 hlt).2 h.across, fun hlt => (Compares.lt_iff.1 hlt).2 h.down⟩

theorem HasSide.unique {name : String} {x y : Float} (hx : HasSide fs name x)
    (hy : HasSide fs name y) : x = y := by
  obtain ⟨v, hv, hx⟩ := hx
  obtain ⟨w, hw, hy⟩ := hy
  rw [hv, Option.some.injEq] at hw
  rw [hw, hy, Except.ok.injEq] at hx
  exact hx.symm

theorem HasSides.unique {c : Box Float} (hb : HasSides fs b) (hc : HasSides fs c) : b = c := by
  cases b
  cases c
  rw [mk.injEq]
  exact ⟨hb.left.unique hc.left, hb.top.unique hc.top, hb.right.unique hc.right,
    hb.bottom.unique hc.bottom⟩

theorem hasSide_iff {name : String} {x : Float} :
    Field.required fs name Field.float = .ok x ↔ HasSide fs name x :=
  Field.required_eq_ok_iff

theorem ofJson_eq_ok_iff {v : Json} : ofJson v = .ok b ↔
    ∃ fs, v = .obj fs ∧ HasSides fs b ∧ (∀ f ∈ fs, f.1 ∈ sideNames) ∧ b.isInverted = false := by
  rw [ofJson.eq_def]
  cases v with
  | obj fs =>
    simp only [Field.record, Checked.ensure_eq_ok_iff, Checked.alsoOk_eq_ok_iff,
      Checked.map2_eq_ok_iff, Checked.both_eq_ok_iff, hasSide_iff, Field.noOthers_eq_ok_iff,
      Prod.exists, Json.obj.injEq, exists_eq_left']
    have hrule : (if b.isInverted = true then some (ProblemCause.rule extentRule) else none) = none ↔
        b.isInverted = false := by
      cases b.isInverted <;> simp
    rw [hrule, and_assoc]
    refine and_congr_left fun _ => ?_
    constructor
    · rintro ⟨l, t, r, b, ⟨hl, ht⟩, ⟨hr, hb⟩, rfl⟩
      exact ⟨hl, ht, hr, hb⟩
    · rintro ⟨hl, ht, hr, hb⟩
      exact ⟨_, _, _, _, ⟨hl, ht⟩, ⟨hr, hb⟩, rfl⟩
  | _ => simp [Field.record, Checked.fail]

/-- A record that is not at fault is a box. -/
theorem exists_ofJson_iff : (∃ b, ofJson (.obj fs) = .ok b) ↔ ¬FaultySides fs := by
  constructor
  · rintro ⟨b, hb⟩
    obtain ⟨gs, heq, hsides, hknown, hinverted⟩ := ofJson_eq_ok_iff.1 hb
    obtain rfl := Json.obj.inj heq
    have hside : ∀ name ∈ sideNames, ∃ x, HasSide fs name x := by
      simp only [sideNames, List.forall_mem_cons]
      exact ⟨⟨_, hsides.left⟩, ⟨_, hsides.top⟩, ⟨_, hsides.right⟩, ⟨_, hsides.bottom⟩, nofun⟩
    rintro (⟨hf, hunknown⟩ | ⟨hname, hnone⟩ | ⟨hname, hv, hunfit⟩ | ⟨hsides', hinverted'⟩)
    · exact hunknown (hknown _ hf)
    · obtain ⟨x, v, hv, -⟩ := hside _ hname
      rw [hnone] at hv
      cases hv
    · obtain ⟨x, w, hw, hx⟩ := hside _ hname
      rw [hv, Option.some.injEq] at hw
      exact hunfit x (hw ▸ hx)
    · rw [← hsides.unique hsides', ← isInverted_iff, hinverted] at hinverted'
      exact absurd hinverted' Bool.false_ne_true
  · intro hfine
    have hside : ∀ name ∈ sideNames, ∃ x, HasSide fs name x := by
      intro name hname
      by_contra hnone
      cases hv : Fields.get? name fs with
      | none => exact hfine (.missing hname hv)
      | some v => exact hfine (.unfit hname hv fun x hx => hnone ⟨x, v, hv, hx⟩)
    obtain ⟨l, hl⟩ := hside "left" (by decide)
    obtain ⟨t, ht⟩ := hside "top" (by decide)
    obtain ⟨r, hr⟩ := hside "right" (by decide)
    obtain ⟨b, hb⟩ := hside "bottom" (by decide)
    refine ⟨⟨l, t, r, b⟩, ofJson_eq_ok_iff.2 ⟨fs, rfl, ⟨hl, ht, hr, hb⟩, fun f hf => ?_, ?_⟩⟩
    · by_contra hunknown
      exact hfine (.unknown hf hunknown)
    · rw [Bool.eq_false_iff, ne_eq, isInverted_iff]
      exact fun hinverted => hfine (.inverted ⟨hl, ht, hr, hb⟩ hinverted)

end Box

end FormulaMap

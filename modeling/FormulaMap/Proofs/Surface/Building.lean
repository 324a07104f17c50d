/-
What a map is like when it has just been built.

Every node but the root is placed from a draft of the walk, with nothing filled in yet.
Elements and segments fall into nine categories (`Category.known`).  These do not tell
signs from operations, so no node is a sign before the atoms have been refined.
-/
import FormulaMap.Proofs.Surface.Refining
import FormulaMap.Proofs.Surface.Sources

namespace FormulaMap

variable {α : Type}

/-! ## The categories of drafts -/

namespace Category

/-- The categories that elements and segments fall into. -/
def known : List Category :=
  [num, var, binaryOp, relation, parenOpen, parenClose, fracBar, fraction, other]

theorem of_mem_known (classes : List String) (text : String) : of classes text ∈ known := by
  unfold of
  dsimp only
  repeat refine iteInduction (motive := (· ∈ known)) (fun _ => by decide) fun _ => ?_
  decide

theorem kind_ne_minusUnary_of_mem_known : ∀ c ∈ known, c.kind ≠ .minusUnary := by decide

/-- What such a category says of clicking is what its kind says. -/
theorem atomic_of_mem_known : ∀ c ∈ known, c.atomic = c.kind.isAtomic := by decide

end Category

theorem SegmentKind.category_mem_known (k : SegmentKind) : k.category ∈ Category.known := by
  cases k <;> decide

theorem Draft.Shows.category_mem_known {d : Draft α} {l : Layout α} (h : d.Shows l) :
    d.category ∈ Category.known := by
  unfold Draft.Shows at h
  split at h
  · obtain ⟨s, -, -, hcategory⟩ := h
    rw [hcategory]
    exact SegmentKind.category_mem_known s.kind
  · rw [h.2]
    exact Category.of_mem_known _ _

namespace SurfaceMap

variable [Coordinate α]

/-- In a built map nothing has been filled in. -/
theorem fresh_build (t : Tolerances α) (container : Address) (layout : Layout α) :
    ∀ n ∈ (build t container layout).nodes, n.Unmarked ∧ n.path = none := by
  intro n hn
  rcases List.mem_cons.1 hn with rfl | hn
  · exact ⟨⟨Node.signShown_of_ne Kind.noConfusion, rfl⟩, rfl⟩
  · obtain ⟨l, -, d, hshows, hnode⟩ := exists_source t container layout n hn
    have hkind := Category.kind_ne_minusUnary_of_mem_known d.category hshows.category_mem_known
    rw [hnode]
    exact ⟨⟨Node.signShown_of_ne hkind, rfl⟩, rfl⟩

end SurfaceMap
end FormulaMap

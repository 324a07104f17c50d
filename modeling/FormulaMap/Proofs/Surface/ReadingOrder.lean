/-
The reading order keeps every leaf.

Arranging a list of blocks sorts it, cuts it into columns and sorts each column, so
it only reorders.  By induction over the tree the leaves in reading order are the
leaves of the tree, each as often as it is there.
-/
import FormulaMap.Surface.Join

namespace FormulaMap
namespace ReadingOrder

variable {α β : Type}

/-- Cutting a list into runs loses nothing. -/
theorem flatten_runs (joined : β → β → Bool) (xs : List β) : (runs joined xs).flatten = xs := by
  induction xs with
  | nil => rfl
  | cons x xs ih =>
    cases xs with
    | nil => rfl
    | cons y ys =>
      rw [runs]
      cases hruns : runs joined (y :: ys) with
      | nil =>
        rw [hruns] at ih
        exact absurd ih (by simp)
      | cons g gs =>
        rw [hruns] at ih
        dsimp only
        by_cases hxy : joined x y = true
        · rw [if_pos hxy, List.flatten_cons, List.cons_append, ← List.flatten_cons, ih]
        · rw [if_neg hxy, List.flatten_cons, ih]
          rfl

theorem flatMap_sortBy_perm (less : β → β → Bool) (columns : List (List β)) :
    (columns.flatMap (sortBy less)).Perm columns.flatten := by
  induction columns with
  | nil => exact List.Perm.refl _
  | cons c cs ih =>
    rw [List.flatMap_cons, List.flatten_cons]
    exact (sortBy_perm less c).append ih

variable [Coordinate α]

theorem arrange_perm (ratio : α) (items : List (Box α × β)) :
    (arrange ratio items).Perm items := by
  unfold arrange
  dsimp only
  refine (flatMap_sortBy_perm _ _).trans ?_
  rw [flatten_runs]
  exact sortBy_perm _ items

mutual

/-- The leaves in reading order are the leaves. -/
theorem leaves_perm (ratio : α) : ∀ t : Tree (Node α), (leaves ratio t).Perm t.leaves
  | .node n [] => by
    rw [leaves]
    exact List.Perm.refl _
  | .node n (t :: ts) => by
    rw [leaves]
    exact ((arrange_perm ratio (blocks ratio (t :: ts))).flatMap_right _).trans
      (blocks_perm ratio (t :: ts))

theorem blocks_perm (ratio : α) :
    ∀ ts : List (Tree (Node α)), ((blocks ratio ts).flatMap (·.2)).Perm (Tree.leavesAll ts)
  | [] => List.Perm.refl _
  | t :: ts => by
    rw [blocks, List.flatMap_cons, Tree.leavesAll]
    exact (leaves_perm ratio t).append (blocks_perm ratio ts)

end

end ReadingOrder

namespace SurfaceMap

variable {α : Type} [Coordinate α]

theorem mem_leaves_iff (t : Tolerances α) (m : SurfaceMap α) {n : Node α} :
    n ∈ m.leaves t ↔ n ∈ m.root.leaves :=
  (ReadingOrder.leaves_perm t.columnOverlap m.root).mem_iff

end SurfaceMap
end FormulaMap

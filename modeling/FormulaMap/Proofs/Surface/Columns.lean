/-
The columns of a row of leaves.

A node over leaves is read column by column: its children are put in order by their left
edges, cut where a neighbour does not overlap the one before it, and every column is read
from top to bottom (`leaves_node_of_leaves`).  What is known of the cuts is that every
column is a chain of overlapping neighbours, and that boxes that overlap along the way
from the first one are in the first column.
-/
import FormulaMap.Proofs.Geometry.Comparing
import FormulaMap.Proofs.Surface.ReadingOrder
import Mathlib.Data.List.Chain

namespace FormulaMap
namespace ReadingOrder

variable {α β γ : Type}

/-! ## Runs -/

theorem runs_cons (joined : β → β → Bool) (x : β) (xs : List β) :
    ∃ run more, runs joined (x :: xs) = (x :: run) :: more := by
  cases xs with
  | nil => exact ⟨[], [], rfl⟩
  | cons y ys =>
    rw [runs]
    split
    · exact ⟨_, _, rfl⟩
    · split
      · exact ⟨_, _, rfl⟩
      · exact ⟨_, _, rfl⟩

theorem runs_cons_cons {joined : β → β → Bool} {x y : β} {ys run : List β} {more : List (List β)}
    (h : runs joined (y :: ys) = run :: more) :
    runs joined (x :: y :: ys) = if joined x y then (x :: run) :: more else [x] :: run :: more := by
  rw [runs, h]

theorem isChain_of_mem_runs {joined : β → β → Bool} {xs run : List β} (h : run ∈ runs joined xs) :
    run.IsChain fun x y => joined x y = true := by
  induction xs generalizing run with
  | nil => exact absurd h List.not_mem_nil
  | cons x xs ih =>
    cases xs with
    | nil =>
      rw [runs, List.mem_singleton] at h
      rw [h]
      exact .singleton x
    | cons y ys =>
      obtain ⟨first, more, hruns⟩ := runs_cons joined y ys
      rw [hruns] at ih
      rw [runs_cons_cons hruns] at h
      split at h
      · next hxy =>
        rcases List.mem_cons.1 h with rfl | h
        · exact .cons_cons hxy (ih List.mem_cons_self)
        · exact ih (List.mem_cons_of_mem _ h)
      · rcases List.mem_cons.1 h with rfl | h
        · exact .singleton x
        · exact ih h

/-- Items that are joined one after another from the front are in the first run. -/
theorem runs_append {joined : β → β → Bool} {front : List β} {b : β} (back : List β)
    (h : (front ++ [b]).IsChain fun x y => joined x y = true) :
    ∃ run more, runs joined (front ++ b :: back) = (front ++ b :: run) :: more := by
  induction front with
  | nil => exact runs_cons joined b back
  | cons x front ih =>
    obtain ⟨run, more, hruns⟩ := ih h.tail
    cases front with
    | nil =>
      rw [List.nil_append] at hruns
      rw [List.cons_append, List.nil_append, runs_cons_cons hruns,
        if_pos (List.isChain_cons_cons.1 h).1]
      exact ⟨_, _, rfl⟩
    | cons y front =>
      refine ⟨run, more, (runs_cons_cons hruns).trans ?_⟩
      rw [if_pos (List.isChain_cons_cons.1 h).1]
      rfl

theorem runs_of_apart {joined : β → β → Bool} {xs : List β}
    (h : xs.IsChain fun x y => joined x y = false) : runs joined xs = xs.map fun x => [x] := by
  induction xs with
  | nil => rfl
  | cons x xs ih =>
    cases xs with
    | nil => rfl
    | cons y ys =>
      obtain ⟨hxy, htail⟩ := List.isChain_cons_cons.1 h
      rw [runs_cons_cons (ih htail), if_neg (by rw [hxy]; exact Bool.false_ne_true)]
      rfl

theorem runs_map (joined : γ → γ → Bool) (f : β → γ) (xs : List β) :
    runs joined (xs.map f) = (runs (fun x y => joined (f x) (f y)) xs).map (List.map f) := by
  induction xs with
  | nil => rfl
  | cons x xs ih =>
    cases xs with
    | nil => rfl
    | cons y ys =>
      obtain ⟨run, more, hruns⟩ := runs_cons (fun x y => joined (f x) (f y)) y ys
      rw [hruns, List.map_cons] at ih
      rw [List.map_cons, List.map_cons, runs_cons_cons ih, runs_cons_cons hruns]
      split <;> rfl

/-! ## Neighbours -/

theorem sameColumn_of_left_eq {ratio : Rat} (hratio : ratio < 1) {a b : Box Rat}
    (ha : a.left < a.right) (hb : b.left < b.right) (hleft : a.left = b.left) :
    sameColumn ratio a b = true := by
  have hwidth : 0 < min (b.right - b.left) (a.right - a.left) := by
    rw [lt_min_iff]
    constructor <;> linarith
  have hoverlap : min b.right a.right - max b.left a.left =
      min (b.right - b.left) (a.right - a.left) := by
    rw [hleft, max_self]
    rcases le_total b.right a.right with h | h
    · rw [min_eq_left h, min_eq_left (by linarith)]
    · rw [min_eq_right h, min_eq_right (by linarith)]
  rw [sameColumn, Box.horizontalOverlap, decide_eq_true_eq, Coordinate.smaller_eq_min,
    Coordinate.smaller_eq_min, Coordinate.larger_eq_max, hoverlap]
  nlinarith

/-- Boxes side by side are in two columns. -/
theorem sameColumn_of_apart {ratio : Rat} (hratio : 0 ≤ ratio) {a b : Box Rat}
    (ha : a.left ≤ a.right) (hb : b.left ≤ b.right) (hapart : a.right ≤ b.left) :
    sameColumn ratio a b = false := by
  have hwidth : 0 ≤ min (b.right - b.left) (a.right - a.left) := by
    rw [le_min_iff]
    constructor <;> linarith
  have hright := min_le_right b.right a.right
  have hleft := le_max_left b.left a.left
  have hproduct := mul_nonneg hratio hwidth
  rw [sameColumn, Box.horizontalOverlap, decide_eq_false_iff_not, not_lt, Coordinate.smaller_eq_min,
    Coordinate.smaller_eq_min, Coordinate.larger_eq_max]
  linarith

/-! ## Columns -/

variable [Coordinate α]

def fromLeft (ns : List (Node α)) : List (Node α) :=
  sortBy (fun a b => decide (a.box.left < b.box.left)) ns

def downward (ns : List (Node α)) : List (Node α) :=
  sortBy (fun a b => decide (a.box.top < b.box.top)) ns

/-- The columns that leaves side by side fall into. -/
def columns (ratio : α) (ns : List (Node α)) : List (List (Node α)) :=
  runs (fun a b => sameColumn ratio a.box b.box) (fromLeft ns)

theorem blocks_leaves (ratio : α) (ns : List (Node α)) :
    blocks ratio (ns.map fun n => .node n []) = ns.map fun n => (n.box, [n]) := by
  induction ns with
  | nil => rfl
  | cons n ns ih =>
    rw [List.map_cons, blocks, ih, leaves]
    rfl

/-- A node over leaves is read column by column, and each column downward. -/
theorem leaves_node_of_leaves (ratio : α) (parent : Node α) {ns : List (Node α)} (hne : ns ≠ []) :
    leaves ratio (.node parent (ns.map fun n => .node n [])) =
      (columns ratio ns).flatMap downward := by
  cases ns with
  | nil => exact absurd rfl hne
  | cons n ns =>
    rw [List.map_cons, leaves, ← List.map_cons (f := fun n => Tree.node n []), blocks_leaves]
    unfold arrange
    dsimp only
    rw [sortBy_map, runs_map, List.flatMap_map, List.flatMap_assoc]
    refine List.flatMap_congr fun column _ => ?_
    rw [sortBy_map, List.flatMap_map]
    exact List.flatMap_singleton' _

theorem flatten_columns (ratio : α) (ns : List (Node α)) :
    (columns ratio ns).flatten = fromLeft ns :=
  flatten_runs _ (fromLeft ns)

theorem pairwise_fromLeft (ns : List (Node Rat)) :
    (fromLeft ns).Pairwise fun a b => a.box.left ≤ b.box.left :=
  (ascends_sortBy (Coordinate.ranks_of_key (fun n : Node Rat => n.box.left)
    fun _ => isNumber_rat _) ns).imp fun hab => not_lt.1 (of_decide_eq_false hab)

theorem pairwise_downward (ns : List (Node Rat)) :
    (downward ns).Pairwise fun a b => a.box.top ≤ b.box.top :=
  (ascends_sortBy (Coordinate.ranks_of_key (fun n : Node Rat => n.box.top)
    fun _ => isNumber_rat _) ns).imp fun hab => not_lt.1 (of_decide_eq_false hab)

end ReadingOrder
end FormulaMap

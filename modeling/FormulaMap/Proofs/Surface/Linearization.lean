/-
Subtrees in reading order.

The children of a node are put in some order, and the leaves below the first of them are
read before those below the next (`leaves_eq_flatMap_inOrder`).  Which order it is depends
on boxes alone, so nothing is asked of them for what holds of every tree: each childless
node is read once, and what is below a node is read in one go, as it would be read if the
node stood alone (`leaves_linearize`).  Nodes that are changed without their boxes are read
as before (`leaves_map`).
-/
import FormulaMap.Proofs.Surface.Fractions
import FormulaMap.Proofs.Surface.WellFormed

namespace FormulaMap

namespace Tree

variable {α : Type}

mutual

/-- The leaves are the values of the subtrees without children. -/
theorem leaves_eq_childless :
    ∀ t : Tree α, t.leaves = (t.subtrees.filter fun s => s.children.isEmpty).map value
  | node a [] => rfl
  | node a (t :: ts) => by
    rw [subtrees, List.filter_cons_of_neg (by simp [children])]
    exact leavesAll_eq_childless (t :: ts)

theorem leavesAll_eq_childless :
    ∀ ts : List (Tree α),
      leavesAll ts = ((subtreesAll ts).filter fun s => s.children.isEmpty).map value
  | [] => rfl
  | t :: ts => by
    rw [leavesAll, subtreesAll, List.filter_append, List.map_append, leaves_eq_childless t,
      leavesAll_eq_childless ts]

end

end Tree

namespace ReadingOrder

variable {α β γ : Type} [Coordinate α]

/-! ## Children in order -/

/-- Arranging looks at nothing but the boxes. -/
theorem arrange_map (ratio : α) (f : β → γ) (items : List (Box α × β)) :
    arrange ratio (items.map (Prod.map id f)) = (arrange ratio items).map (Prod.map id f) := by
  unfold arrange
  dsimp only
  rw [sortBy_map, runs_map, List.flatMap_map, List.map_flatMap]
  exact List.flatMap_congr fun column _ => sortBy_map _ _ column

/-- Children in the order in which they are read. -/
def inOrder (ratio : α) (ts : List (Tree (Node α))) : List (Tree (Node α)) :=
  (arrange ratio (ts.map fun t => (t.value.box, t))).map Prod.snd

theorem inOrder_perm (ratio : α) (ts : List (Tree (Node α))) : (inOrder ratio ts).Perm ts := by
  have hperm := (arrange_perm ratio (ts.map fun t => (t.value.box, t))).map Prod.snd
  rwa [List.map_map, List.map_id''] at hperm
  exact fun _ => rfl

theorem blocks_eq_map (ratio : α) (ts : List (Tree (Node α))) :
    blocks ratio ts = ts.map fun t => (t.value.box, leaves ratio t) := by
  induction ts with
  | nil => rfl
  | cons t ts ih => rw [blocks, ih, List.map_cons]

theorem leaves_node (ratio : α) (n : Node α) {ts : List (Tree (Node α))} (hne : ts ≠ []) :
    leaves ratio (.node n ts) = (arrange ratio (blocks ratio ts)).flatMap (·.2) := by
  cases ts with
  | nil => exact absurd rfl hne
  | cons t ts => rw [leaves]

/-- A node with children is read child by child. -/
theorem leaves_eq_flatMap_inOrder (ratio : α) (n : Node α) {ts : List (Tree (Node α))}
    (hne : ts ≠ []) : leaves ratio (.node n ts) = (inOrder ratio ts).flatMap (leaves ratio) := by
  have hblocks : blocks ratio ts =
      (ts.map fun t => (t.value.box, t)).map (Prod.map id (leaves ratio)) := by
    rw [blocks_eq_map, List.map_map]
    rfl
  rw [leaves_node ratio n hne, hblocks, arrange_map, inOrder, List.flatMap_map, List.flatMap_map]
  rfl

/-! ## Subtrees -/

mutual

/-- What is below a node is read in one go. -/
theorem leaves_infix (ratio : α) :
    ∀ t : Tree (Node α), ∀ s ∈ t.subtrees, leaves ratio s <:+: leaves ratio t
  | .node n ts => by
    intro s hs
    rw [Tree.subtrees] at hs
    rcases List.mem_cons.1 hs with rfl | hs
    · exact List.infix_rfl
    · obtain ⟨t, ht, hst⟩ := leaves_infix_of_mem_subtreesAll ratio ts s hs
      rw [leaves_eq_flatMap_inOrder ratio n (List.ne_nil_of_mem ht)]
      obtain ⟨before, after, hsplit⟩ :=
        List.append_of_mem ((inOrder_perm ratio ts).mem_iff.2 ht)
      rw [hsplit, List.flatMap_append, List.flatMap_cons, ← List.append_assoc]
      exact hst.trans (List.infix_append _ _ _)

theorem leaves_infix_of_mem_subtreesAll (ratio : α) :
    ∀ ts : List (Tree (Node α)), ∀ s ∈ Tree.subtreesAll ts,
      ∃ t ∈ ts, leaves ratio s <:+: leaves ratio t
  | [] => by
    intro s hs
    exact absurd hs List.not_mem_nil
  | t :: ts => by
    intro s hs
    rw [Tree.subtreesAll] at hs
    rcases List.mem_append.1 hs with hs | hs
    · exact ⟨t, List.mem_cons_self, leaves_infix ratio t s hs⟩
    · obtain ⟨u, hu, hinfix⟩ := leaves_infix_of_mem_subtreesAll ratio ts s hs
      exact ⟨u, List.mem_cons_of_mem t hu, hinfix⟩

end

/-- Every node without children is read, as often as it is there, and what is below a node
is read without interruption and in the order in which the node alone is read. -/
theorem leaves_linearize (ratio : α) (t : Tree (Node α)) :
    (leaves ratio t).Perm ((t.subtrees.filter fun s => s.children.isEmpty).map Tree.value) ∧
      ∀ s ∈ t.subtrees, ∃ before after,
        leaves ratio t = before ++ leaves ratio s ++ after ∧
          (t.preorder.Nodup → ∀ n ∈ leaves ratio s, n ∉ before ∧ n ∉ after) := by
  have hperm := leaves_perm ratio t
  refine ⟨Tree.leaves_eq_childless t ▸ hperm, fun s hs => ?_⟩
  obtain ⟨before, after, hsplit⟩ := leaves_infix ratio t s hs
  refine ⟨before, after, hsplit.symm, fun hdistinct n hn => ?_⟩
  have honce : (leaves ratio t).Nodup :=
    hperm.nodup_iff.2 ((Tree.leaves_sublist_preorder t).nodup hdistinct)
  rw [← hsplit, List.nodup_append, List.nodup_append] at honce
  obtain ⟨⟨-, -, hbefore⟩, -, hafter⟩ := honce
  exact ⟨fun h => hbefore n h n hn rfl,
    fun h => hafter n (List.mem_append_right before hn) n h rfl⟩

namespace TwoAndAThird

/-- A third, as it is typeset: the denominator comes before the bar and the numerator. -/
def fraction : Tree (Node Rat) :=
  .node (glyph 3 .fraction "" ⟨24, 0, 44, 24⟩)
    [.node (glyph 4 .num "3" ⟨29, 14, 39, 24⟩) [], .node (glyph 5 .fracBar "" ⟨24, 11, 44, 12⟩) [],
      .node (glyph 6 .num "1" ⟨29, 0, 39, 10⟩) []]

def sum : Tree (Node Rat) :=
  .node (glyph 0 .root "" ⟨0, 0, 44, 24⟩)
    [.node (glyph 1 .num "2" ⟨0, 7, 10, 17⟩) [], .node (glyph 2 .binaryOp "+" ⟨12, 7, 22, 17⟩) [],
      fraction]

theorem fraction_in_one_go :
    sum.preorder.Nodup ∧ fraction ∈ sum.subtrees ∧ ∃ before after,
      leaves (1 / 2) sum = before ++ leaves (1 / 2) fraction ++ after ∧
        ∀ n ∈ leaves (1 / 2) fraction, n ∉ before ∧ n ∉ after := by
  have hdistinct : sum.preorder.Nodup := by decide +kernel
  have hmem : fraction ∈ sum.subtrees := by
    simp [sum, fraction, Tree.subtrees, Tree.subtreesAll]
  obtain ⟨before, after, hsplit, hapart⟩ := (leaves_linearize (1 / 2) sum).2 fraction hmem
  exact ⟨hdistinct, hmem, before, after, hsplit, hapart hdistinct⟩

end TwoAndAThird

/-! ## Nodes changed in place -/

variable {f : Node α → Node α}

theorem inOrder_map (ratio : α) {ts : List (Tree (Node α))}
    (hbox : ∀ t ∈ ts, (f t.value).box = t.value.box) :
    inOrder ratio (ts.map (Tree.map f)) = (inOrder ratio ts).map (Tree.map f) := by
  have hitems : (ts.map (Tree.map f)).map (fun t => (t.value.box, t)) =
      (ts.map fun t => (t.value.box, t)).map (Prod.map id (Tree.map f)) := by
    rw [List.map_map, List.map_map]
    refine List.map_congr_left fun t ht => Prod.ext ?_ rfl
    cases t with
    | node n cs => exact hbox _ ht
  rw [inOrder, hitems, arrange_map, inOrder, List.map_map, List.map_map]
  rfl

mutual

/-- A change that keeps the boxes keeps the order. -/
theorem leaves_map (ratio : α) (hbox : ∀ n, (f n).box = n.box) :
    ∀ t : Tree (Node α), leaves ratio (t.map f) = (leaves ratio t).map f
  | .node n [] => by
    rw [Tree.map, Tree.mapAll, leaves, leaves]
    rfl
  | .node n (t :: ts) => by
    have hne : (t :: ts).map (Tree.map f) ≠ [] := by simp
    rw [Tree.map, Tree.mapAll_eq, leaves_eq_flatMap_inOrder ratio (f n) hne,
      inOrder_map ratio fun u _ => hbox u.value,
      leaves_eq_flatMap_inOrder ratio n (List.cons_ne_nil t ts), List.flatMap_map,
      List.map_flatMap]
    refine List.flatMap_congr fun u hu => ?_
    exact leaves_map_of_mem ratio hbox (t :: ts) u ((inOrder_perm ratio (t :: ts)).mem_iff.1 hu)

theorem leaves_map_of_mem (ratio : α) (hbox : ∀ n, (f n).box = n.box) :
    ∀ ts : List (Tree (Node α)), ∀ t ∈ ts, leaves ratio (t.map f) = (leaves ratio t).map f
  | [] => by
    intro t ht
    exact absurd ht List.not_mem_nil
  | t :: ts => by
    intro u hu
    rcases List.mem_cons.1 hu with heq | hu
    · rw [heq]
      exact leaves_map ratio hbox t
    · exact leaves_map_of_mem ratio hbox ts u hu

end

end ReadingOrder
end FormulaMap

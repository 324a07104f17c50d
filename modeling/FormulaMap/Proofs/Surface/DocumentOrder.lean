/-
Rows and stacks.

When the children of a node stand in a row, or one over the other about one centre, the
boxes alone say how they are read: a row from left to right, since no two neighbours fall
into one column, and a stack from top to bottom, since from the left edge on every box
lies within the one before it, so that all fall into one column.  Two orders that ascend
strictly by the same boxes are equal, so it makes no difference in which order the
children come in the document (`leaves_of_permuted`).
-/
import FormulaMap.Proofs.Surface.Linearization

namespace FormulaMap

/-! ## Permuting children -/

namespace Tree

variable {α : Type}

/-- One list of children, at some node, is put in another order. -/
inductive Permuted : Tree α → Tree α → Prop where
  | root (a : α) {ts us : List (Tree α)} : ts.Perm us → Permuted (node a ts) (node a us)
  | child (a : α) (before after : List (Tree α)) {t u : Tree α} :
      Permuted t u → Permuted (node a (before ++ t :: after)) (node a (before ++ u :: after))

theorem Permuted.value_eq {t u : Tree α} (h : Permuted t u) : u.value = t.value := by
  cases h <;> rfl

theorem mem_subtreesAll {ts : List (Tree α)} {s : Tree α} :
    s ∈ subtreesAll ts ↔ ∃ t ∈ ts, s ∈ t.subtrees := by
  induction ts with
  | nil => simp [subtreesAll]
  | cons t ts ih => simp [subtreesAll, ih]

end Tree

namespace ReadingOrder

variable {β : Type}

/-! ## Boxes in a row or in a stack -/

/-- Boxes side by side, in any order. -/
structure IsRow (bs : List (Box Rat)) : Prop where
  wide : ∀ b ∈ bs, b.left < b.right
  apart : bs.Pairwise fun a b => a.right ≤ b.left ∨ b.right ≤ a.left

/-- Boxes about one centre, each with a top edge of its own. -/
structure IsStack (bs : List (Box Rat)) : Prop where
  wide : ∀ b ∈ bs, b.left < b.right
  centred : ∀ a ∈ bs, ∀ b ∈ bs, a.centerX = b.centerX
  distinct : bs.Pairwise fun a b => a.top ≠ b.top

instance (bs : List (Box Rat)) : Decidable (IsRow bs) :=
  decidable_of_iff ((∀ b ∈ bs, b.left < b.right) ∧
    bs.Pairwise fun a b => a.right ≤ b.left ∨ b.right ≤ a.left)
    ⟨fun h => ⟨h.1, h.2⟩, fun h => ⟨h.wide, h.apart⟩⟩

instance (bs : List (Box Rat)) : Decidable (IsStack bs) :=
  decidable_of_iff ((∀ b ∈ bs, b.left < b.right) ∧
    (∀ a ∈ bs, ∀ b ∈ bs, a.centerX = b.centerX) ∧ bs.Pairwise fun a b => a.top ≠ b.top)
    ⟨fun h => ⟨h.1, h.2.1, h.2.2⟩, fun h => ⟨h.wide, h.centred, h.distinct⟩⟩

theorem IsRow.perm {as bs : List (Box Rat)} (h : IsRow as) (hperm : as.Perm bs) : IsRow bs where
  wide := fun b hb => h.wide b (hperm.mem_iff.2 hb)
  apart := (hperm.pairwise_iff Or.symm).1 h.apart

theorem IsStack.perm {as bs : List (Box Rat)} (h : IsStack as) (hperm : as.Perm bs) :
    IsStack bs where
  wide := fun b hb => h.wide b (hperm.mem_iff.2 hb)
  centred := fun a ha b hb => h.centred a (hperm.mem_iff.2 ha) b (hperm.mem_iff.2 hb)
  distinct := (hperm.pairwise_iff Ne.symm).1 h.distinct

/-! ## Columns of rows and stacks -/

theorem runs_of_isChain {joined : β → β → Bool} {xs : List β} (hne : xs ≠ [])
    (h : xs.IsChain fun x y => joined x y = true) : runs joined xs = [xs] := by
  induction xs with
  | nil => exact absurd rfl hne
  | cons x xs ih =>
    cases xs with
    | nil => rfl
    | cons y ys =>
      obtain ⟨hxy, htail⟩ := List.isChain_cons_cons.1 h
      rw [runs_cons_cons (ih (List.cons_ne_nil y ys) htail), if_pos hxy]

/-- A box about the same centre that begins no further left lies within the other. -/
theorem sameColumn_of_centred {ratio : Rat} (hratio : ratio < 1) {a b : Box Rat}
    (hb : b.left < b.right) (hcentre : a.centerX = b.centerX) (hleft : a.left ≤ b.left) :
    sameColumn ratio a b = true := by
  have hsum : a.left + a.right = b.left + b.right := by
    have htwo : (2 : Rat) ≠ 0 := by norm_num
    exact (div_left_inj' htwo).1 hcentre
  have hright : b.right ≤ a.right := by linarith
  have hwidth : b.right - b.left ≤ a.right - a.left := by linarith
  rw [sameColumn, Box.horizontalOverlap, decide_eq_true_eq, Coordinate.smaller_eq_min,
    Coordinate.smaller_eq_min, Coordinate.larger_eq_max, min_eq_left hwidth, min_eq_left hright,
    max_eq_left hleft]
  nlinarith

section
variable {ratio : Rat} {items : List (Box Rat × β)}

theorem pairwise_sortBy_left (items : List (Box Rat × β)) :
    (sortBy (fun a b => decide (a.1.left < b.1.left)) items).Pairwise
      fun a b => a.1.left ≤ b.1.left :=
  (ascends_sortBy (Coordinate.ranks_of_key (fun a : Box Rat × β => a.1.left)
    fun _ => isNumber_rat _) items).imp fun hab => not_lt.1 (of_decide_eq_false hab)

/-- A row is arranged from left to right. -/
theorem arrange_of_isRow (hpos : 0 ≤ ratio) (h : IsRow (items.map Prod.fst)) :
    (arrange ratio items).Pairwise fun a b => a.1.right ≤ b.1.left := by
  unfold arrange
  dsimp only
  have hsorted := pairwise_sortBy_left items
  have hrow := h.perm ((sortBy_perm (fun a b => decide (a.1.left < b.1.left)) items).map _).symm
  generalize sortBy (fun a b => decide (a.1.left < b.1.left)) items = sorted at hsorted hrow ⊢
  have hwide : ∀ x ∈ sorted, x.1.left < x.1.right :=
    fun x hx => hrow.wide x.1 (List.mem_map_of_mem hx)
  have hbeside : sorted.Pairwise fun a b => a.1.right ≤ b.1.left := by
    refine ((List.pairwise_map.1 hrow.apart).and hsorted).imp_of_mem ?_
    rintro a b - hb ⟨hab | hba, hleft⟩
    · exact hab
    · have := hwide b hb
      linarith
  have hcut : sorted.IsChain fun a b => sameColumn ratio a.1 b.1 = false :=
    (hbeside.imp_of_mem fun ha hb hab =>
      sameColumn_of_apart hpos (hwide _ ha).le (hwide _ hb).le hab).isChain
  have hsingle : ∀ x : Box Rat × β, sortBy (fun a b => decide (a.1.top < b.1.top)) [x] = [x] :=
    fun _ => rfl
  rw [runs_of_apart hcut, List.flatMap_map]
  simp only [hsingle, List.flatMap_singleton']
  exact hbeside

/-- A stack is arranged from top to bottom. -/
theorem arrange_of_isStack (hratio : ratio < 1) (h : IsStack (items.map Prod.fst)) :
    (arrange ratio items).Pairwise fun a b => a.1.top < b.1.top := by
  have hstack := h.perm ((arrange_perm ratio items).map _).symm
  revert hstack
  unfold arrange
  dsimp only
  have hsorted := pairwise_sortBy_left items
  have hcolumn := h.perm ((sortBy_perm (fun a b => decide (a.1.left < b.1.left)) items).map _).symm
  generalize sortBy (fun a b => decide (a.1.left < b.1.left)) items = sorted at hsorted hcolumn ⊢
  intro hstack
  rcases eq_or_ne sorted [] with rfl | hne
  · exact List.Pairwise.nil
  · have hjoined : sorted.IsChain fun a b => sameColumn ratio a.1 b.1 = true := by
      refine (hsorted.imp_of_mem fun {a b} ha hb hab => ?_).isChain
      have hbmem := List.mem_map_of_mem (f := Prod.fst) hb
      exact sameColumn_of_centred hratio (hcolumn.wide b.1 hbmem)
        (hcolumn.centred a.1 (List.mem_map_of_mem ha) b.1 hbmem) hab
    rw [runs_of_isChain hne hjoined, List.flatMap_singleton] at hstack ⊢
    have hdown := ascends_sortBy (Coordinate.ranks_of_key (fun a : Box Rat × β => a.1.top)
      fun _ => isNumber_rat _) sorted
    refine (hdown.and (List.pairwise_map.1 hstack.distinct)).imp fun {a b} hab => ?_
    exact (not_lt.1 (of_decide_eq_false hab.1)).lt_of_ne hab.2

/-- The order in which a row or a stack comes makes no difference. -/
theorem arrange_eq_of_perm (hpos : 0 ≤ ratio) (hratio : ratio < 1)
    (h : IsRow (items.map Prod.fst) ∨ IsStack (items.map Prod.fst))
    {items' : List (Box Rat × β)} (hperm : items.Perm items') :
    arrange ratio items' = arrange ratio items := by
  have harranged : (arrange ratio items').Perm (arrange ratio items) :=
    (arrange_perm ratio items').trans (hperm.symm.trans (arrange_perm ratio items).symm)
  rcases h with h | h
  · refine harranged.eq_of_pairwise (fun a b _ hb hab hba => ?_)
      (arrange_of_isRow hpos (h.perm (hperm.map _))) (arrange_of_isRow hpos h)
    have hmem := List.mem_map_of_mem (f := Prod.fst) ((arrange_perm ratio items).mem_iff.1 hb)
    have hwide := h.wide b.1 hmem
    have hmem' := List.mem_map_of_mem (f := Prod.fst)
      ((arrange_perm ratio items).mem_iff.1 (harranged.mem_iff.1 ‹a ∈ _›))
    have hwide' := h.wide a.1 hmem'
    linarith
  · refine harranged.eq_of_pairwise (fun a b _ _ hab hba => ?_)
      (arrange_of_isStack hratio (h.perm (hperm.map _))) (arrange_of_isStack hratio h)
    exact absurd hba hab.asymm

end

/-! ## Trees of rows and stacks -/

/-- The boxes of the children of a node. -/
def childBoxes (t : Tree (Node Rat)) : List (Box Rat) := t.children.map (·.value.box)

/-- The children of every node are in a row or in a stack. -/
def Typeset (t : Tree (Node Rat)) : Prop :=
  ∀ s ∈ t.subtrees, IsRow (childBoxes s) ∨ IsStack (childBoxes s)

instance (t : Tree (Node Rat)) : Decidable (Typeset t) :=
  inferInstanceAs (Decidable (∀ s ∈ t.subtrees, _))

theorem typeset_node {n : Node Rat} {ts : List (Tree (Node Rat))} :
    Typeset (.node n ts) ↔
      (IsRow (ts.map (·.value.box)) ∨ IsStack (ts.map (·.value.box))) ∧ ∀ t ∈ ts, Typeset t := by
  simp only [Typeset, Tree.subtrees, List.forall_mem_cons, Tree.mem_subtreesAll]
  refine and_congr Iff.rfl ⟨fun h t ht s hs => h s ⟨t, ht, hs⟩, ?_⟩
  rintro h s ⟨t, ht, hs⟩
  exact h t ht s hs

theorem map_fst_blocks (ratio : Rat) (ts : List (Tree (Node Rat))) :
    (blocks ratio ts).map Prod.fst = ts.map (·.value.box) := by
  rw [blocks_eq_map, List.map_map]
  rfl

section
variable {ratio : Rat} {ts : List (Tree (Node Rat))}

theorem box_eq_of_mem_arrange {item : Box Rat × Tree (Node Rat)}
    (h : item ∈ arrange ratio (ts.map fun t => (t.value.box, t))) : item.1 = item.2.value.box := by
  obtain ⟨t, -, rfl⟩ := List.mem_map.1 ((arrange_perm ratio _).mem_iff.1 h)
  rfl

theorem inOrder_of_isRow (hpos : 0 ≤ ratio) (h : IsRow (ts.map (·.value.box))) :
    (inOrder ratio ts).Pairwise fun a b => a.value.box.right ≤ b.value.box.left := by
  have hitems : IsRow ((ts.map fun t => (t.value.box, t)).map Prod.fst) := by
    rwa [List.map_map]
  refine List.pairwise_map.2 ((arrange_of_isRow hpos hitems).imp_of_mem fun ha hb hab => ?_)
  rwa [← box_eq_of_mem_arrange ha, ← box_eq_of_mem_arrange hb]

theorem inOrder_of_isStack (hratio : ratio < 1) (h : IsStack (ts.map (·.value.box))) :
    (inOrder ratio ts).Pairwise fun a b => a.value.box.top < b.value.box.top := by
  have hitems : IsStack ((ts.map fun t => (t.value.box, t)).map Prod.fst) := by
    rwa [List.map_map]
  refine List.pairwise_map.2 ((arrange_of_isStack hratio hitems).imp_of_mem fun ha hb hab => ?_)
  rwa [← box_eq_of_mem_arrange ha, ← box_eq_of_mem_arrange hb]

end

/-- One list of children in another order is read as before, and is in rows and stacks as
before. -/
theorem leaves_eq_of_permuted {ratio : Rat} (hpos : 0 ≤ ratio) (hratio : ratio < 1)
    {s s' : Tree (Node Rat)} (h : Typeset s) (hpermuted : s.Permuted s') :
    Typeset s' ∧ leaves ratio s' = leaves ratio s := by
  induction hpermuted with
  | @root n ts us hperm =>
    obtain ⟨hboxes, hchildren⟩ := typeset_node.1 h
    refine ⟨typeset_node.2 ⟨?_, fun t ht => hchildren t (hperm.mem_iff.2 ht)⟩, ?_⟩
    · exact hboxes.imp (·.perm (hperm.map _)) (·.perm (hperm.map _))
    · rcases eq_or_ne ts [] with rfl | hne
      · rw [hperm.nil_eq]
      · have hblocks : (blocks ratio ts).Perm (blocks ratio us) := by
          rw [blocks_eq_map, blocks_eq_map]
          exact hperm.map _
        rw [← map_fst_blocks ratio] at hboxes
        rw [leaves_node ratio n hne, leaves_node ratio n fun hnil => hne (hnil ▸ hperm).eq_nil,
          arrange_eq_of_perm hpos hratio hboxes hblocks]
  | @child n before after t u hpermuted ih =>
    obtain ⟨hboxes, hchildren⟩ := typeset_node.1 h
    obtain ⟨htypeset, hleaves⟩ := ih (hchildren t (by simp))
    have hvalue := hpermuted.value_eq
    refine ⟨typeset_node.2 ⟨?_, fun v hv => ?_⟩, ?_⟩
    · simpa only [List.map_append, List.map_cons, hvalue] using hboxes
    · rcases List.mem_append.1 hv with hv | hv
      · exact hchildren v (List.mem_append_left _ hv)
      · rcases List.mem_cons.1 hv with rfl | hv
        · exact htypeset
        · exact hchildren v (List.mem_append_right _ (List.mem_cons_of_mem t hv))
    · have hblocks : blocks ratio (before ++ u :: after) = blocks ratio (before ++ t :: after) := by
        simp only [blocks_eq_map, List.map_append, List.map_cons, hvalue, hleaves]
      rw [leaves_node ratio n (by simp), leaves_node ratio n (by simp), hblocks]

/-- In a tree of rows and stacks every row is read from left to right and every stack from
top to bottom, and it can be put together in any order: with the children of any nodes
permuted it is read the same.  A ratio of overlap is never negative; at one or more a stack
is no column. -/
theorem leaves_of_permuted {t : Tolerances Rat} (hpos : 0 ≤ t.columnOverlap)
    (hratio : t.columnOverlap < 1) {s : Tree (Node Rat)} (h : Typeset s) :
    (∀ u ∈ s.subtrees, u.children ≠ [] →
      ∃ us : List (Tree (Node Rat)), us.Perm u.children ∧
        leaves t.columnOverlap u = us.flatMap (leaves t.columnOverlap) ∧
        (IsRow (childBoxes u) →
          us.Pairwise fun a b => a.value.box.right ≤ b.value.box.left) ∧
        (IsStack (childBoxes u) →
          us.Pairwise fun a b => a.value.box.top < b.value.box.top)) ∧
      ∀ s', Relation.ReflTransGen Tree.Permuted s s' →
        leaves t.columnOverlap s' = leaves t.columnOverlap s := by
  constructor
  · rintro ⟨n, ts⟩ - hne
    exact ⟨inOrder t.columnOverlap ts, inOrder_perm t.columnOverlap ts,
      leaves_eq_flatMap_inOrder t.columnOverlap n hne, inOrder_of_isRow hpos,
      inOrder_of_isStack hratio⟩
  · intro s' hpermuted
    suffices hread : Typeset s' ∧ leaves t.columnOverlap s' = leaves t.columnOverlap s from hread.2
    induction hpermuted with
    | refl => exact ⟨h, rfl⟩
    | tail _ hstep ih =>
      obtain ⟨htypeset, hleaves⟩ := leaves_eq_of_permuted hpos hratio ih.1 hstep
      exact ⟨htypeset, hleaves.trans ih.2⟩

namespace TwoAndAThird

/-- The fraction with its parts in the order in which they are read. -/
def upright : Tree (Node Rat) := .node fraction.value fraction.children.reverse

/-- The sum with the fraction put first. -/
def turned : Tree (Node Rat) := .node sum.value (upright :: sum.children.take 2)

theorem sum_permuted_turned : Relation.ReflTransGen Tree.Permuted sum turned := by
  have hupright : sum.Permuted (.node sum.value (sum.children.take 2 ++ [upright])) :=
    .child sum.value (sum.children.take 2) [] (.root fraction.value (List.reverse_perm _).symm)
  exact (Relation.ReflTransGen.single hupright).tail (.root sum.value List.perm_append_comm)

theorem leaves_turned :
    0 ≤ (Tolerances.standard : Tolerances Rat).columnOverlap ∧
      (Tolerances.standard : Tolerances Rat).columnOverlap < 1 ∧ Typeset sum ∧
      Relation.ReflTransGen Tree.Permuted sum turned ∧
      leaves Tolerances.standard.columnOverlap turned =
        leaves Tolerances.standard.columnOverlap sum ∧
      (leaves Tolerances.standard.columnOverlap sum).map (·.text) = ["2", "+", "1", "", "3"] := by
  have hpos : (0 : Rat) ≤ (Tolerances.standard : Tolerances Rat).columnOverlap := by decide +kernel
  have hratio : (Tolerances.standard : Tolerances Rat).columnOverlap < 1 := by decide +kernel
  have htypeset : Typeset sum := by decide +kernel
  exact ⟨hpos, hratio, htypeset, sum_permuted_turned,
    (leaves_of_permuted hpos hratio htypeset).2 turned sum_permuted_turned, by decide +kernel⟩

end TwoAndAThird

end ReadingOrder
end FormulaMap

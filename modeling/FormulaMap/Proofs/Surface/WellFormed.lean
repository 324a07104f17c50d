/-
Built maps are well formed.

What callers rely on in a map (`SurfaceMap.WellFormed`): identifiers tell nodes apart, a
node is the child of its parent and of no other node, every node is below the root, the
atoms are the nodes that can be clicked, in preorder, and an element leads to the node
that was made from it last.  Parents are found through the numbers above a node, so the
tree has to be read off the numbers: in a placed forest a child has the number of its
parent on top of what is above the parent (`Draft.stacked_place`), and numbers tell
nodes apart.  Atoms and elements are collected in one pass (`onePass`), and what the pass
has collected in the end is stated of the map.
-/
import FormulaMap.Proofs.Surface.Identifiers
import FormulaMap.Proofs.Surface.OnePass
import Mathlib.Logic.Relation

namespace FormulaMap

variable {α : Type}

/-! ## Subtrees -/

namespace Tree

mutual

theorem map_value_subtrees : ∀ t : Tree α, t.subtrees.map value = t.preorder
  | node a cs => by
    rw [subtrees, List.map_cons, map_value_subtreesAll cs, preorder]
    rfl

theorem map_value_subtreesAll :
    ∀ ts : List (Tree α), (subtreesAll ts).map value = preorderAll ts
  | [] => rfl
  | t :: ts => by
    rw [subtreesAll, List.map_append, map_value_subtrees t, map_value_subtreesAll ts, preorderAll]

end

mutual

/-- The children of all subtrees are the values of the tree without the one at the root. -/
theorem children_perm :
    ∀ t : Tree α, (t.subtrees.flatMap fun s => s.children.map value).Perm t.preorder.tail
  | node a cs => by
    rw [subtrees, List.flatMap_cons, preorder, List.tail_cons]
    exact childrenAll_perm cs

theorem childrenAll_perm :
    ∀ ts : List (Tree α),
      (ts.map value ++ (subtreesAll ts).flatMap fun s => s.children.map value).Perm
        (preorderAll ts)
  | [] => List.Perm.refl _
  | t :: ts => by
    have hcons : t.preorder = t.value :: t.preorder.tail := by
      cases t with
      | node a cs => rfl
    rw [subtreesAll, List.flatMap_append, preorderAll, hcons]
    exact ((List.perm_append_comm_assoc _ _ _).trans
      ((children_perm t).append (childrenAll_perm ts))).cons t.value

end

mutual

/-- What holds of the tree, and of the children of a subtree when it holds of that, holds
of all subtrees. -/
theorem forall_subtrees {P : Tree α → Prop} :
    ∀ t : Tree α, P t → (∀ s ∈ t.subtrees, P s → ∀ c ∈ s.children, P c) → ∀ s ∈ t.subtrees, P s
  | node a cs => by
    intro ht hstep s hs
    rw [subtrees] at hs hstep
    rcases List.mem_cons.1 hs with rfl | hs
    · exact ht
    · exact forall_subtreesAll cs (hstep _ List.mem_cons_self ht)
        (fun u hu => hstep u (List.mem_cons_of_mem _ hu)) s hs

theorem forall_subtreesAll {P : Tree α → Prop} :
    ∀ ts : List (Tree α), (∀ t ∈ ts, P t) →
      (∀ s ∈ subtreesAll ts, P s → ∀ c ∈ s.children, P c) → ∀ s ∈ subtreesAll ts, P s
  | [] => by
    intro _ _ s hs
    exact absurd hs List.not_mem_nil
  | t :: ts => by
    intro hts hstep s hs
    rw [subtreesAll] at hs hstep
    rcases List.mem_append.1 hs with hs | hs
    · exact forall_subtrees t (hts t List.mem_cons_self)
        (fun u hu => hstep u (List.mem_append_left _ hu)) s hs
    · exact forall_subtreesAll ts (fun u hu => hts u (List.mem_cons_of_mem t hu))
        (fun u hu => hstep u (List.mem_append_right _ hu)) s hs

end

end Tree

/-! ## Numbers above children -/

/-- Above a child stands its parent, and what is above the parent. -/
def Stacked (s : Tree (Node α)) : Prop :=
  ∀ c ∈ s.children, c.value.above = s.value.number :: s.value.above

namespace Draft

theorem above_of_mem_placeAll {above : List Nat} {k : Nat} {ts : List (Tree (Draft α))}
    {c : Tree (Node α)} (hc : c ∈ placeAll above k ts) : c.value.above = above := by
  induction ts generalizing k with
  | nil => exact absurd hc List.not_mem_nil
  | cons t ts ih =>
    rw [placeAll] at hc
    rcases List.mem_cons.1 hc with rfl | hc
    · cases t with
      | node d cs => rfl
    · exact ih hc

mutual

theorem stacked_place (above : List Nat) (k : Nat) :
    ∀ t : Tree (Draft α), ∀ s ∈ (place above k t).subtrees, Stacked s
  | .node d ts => by
    intro s hs
    rw [place, Tree.subtrees] at hs
    rcases List.mem_cons.1 hs with rfl | hs
    · exact fun c hc => above_of_mem_placeAll hc
    · exact stacked_placeAll (k :: above) (k + 1) ts s hs

theorem stacked_placeAll (above : List Nat) (k : Nat) :
    ∀ ts : List (Tree (Draft α)), ∀ s ∈ Tree.subtreesAll (placeAll above k ts), Stacked s
  | [] => by
    intro s hs
    exact absurd hs List.not_mem_nil
  | t :: ts => by
    intro s hs
    rw [placeAll, Tree.subtreesAll] at hs
    rcases List.mem_append.1 hs with hs | hs
    · exact stacked_place above k t s hs
    · exact stacked_placeAll above (k + t.size) ts s hs

end

end Draft

namespace SurfaceMap

theorem stacked_build [Coordinate α] (t : Tolerances α) (container : Address)
    (layout : Layout α) : ∀ s ∈ (build t container layout).root.subtrees, Stacked s := by
  intro s hs
  unfold build at hs
  dsimp only at hs
  rw [Tree.subtrees] at hs
  rcases List.mem_cons.1 hs with rfl | hs
  · exact fun c hc => Draft.above_of_mem_placeAll hc
  · exact Draft.stacked_placeAll [0] 1 _ s hs

/-! ## Parents -/

/-- The node with the number that is nearest above. -/
def parent? (m : SurfaceMap α) (n : Node α) : Option (Node α) :=
  n.above.head?.bind m.nodeAt?

variable {m : SurfaceMap α}

theorem nodeAt?_number (h : Placed m.root) {n : Node α} (hn : n ∈ m.nodes) :
    m.nodeAt? n.number = some n :=
  find?_number h.distinct hn

theorem value_mem_nodes {s : Tree (Node α)} (hs : s ∈ m.root.subtrees) : s.value ∈ m.nodes := by
  rw [nodes, ← Tree.map_value_subtrees]
  exact List.mem_map_of_mem hs

theorem parent?_of_mem_children (h : Placed m.root) (hstacked : ∀ s ∈ m.root.subtrees, Stacked s)
    {s c : Tree (Node α)} (hs : s ∈ m.root.subtrees) (hc : c ∈ s.children) :
    m.parent? c.value = some s.value := by
  rw [parent?, hstacked s hs c hc, List.head?_cons, Option.bind_some]
  exact nodeAt?_number h (value_mem_nodes hs)

/-- A node below the root is a child of the node that its number leads to, and of no other. -/
theorem mem_children_iff (h : Placed m.root) (hstacked : ∀ s ∈ m.root.subtrees, Stacked s)
    {s : Tree (Node α)} (hs : s ∈ m.root.subtrees) {n : Node α} (hn : n ∈ m.nodes.tail) :
    n ∈ s.children.map Tree.value ↔ m.parent? n = some s.value := by
  constructor
  · intro hmem
    obtain ⟨c, hc, rfl⟩ := List.mem_map.1 hmem
    exact parent?_of_mem_children h hstacked hs hc
  · intro hparent
    obtain ⟨s', hs', hmem⟩ := List.mem_flatMap.1 ((Tree.children_perm m.root).mem_iff.2 hn)
    obtain ⟨c, hc, rfl⟩ := List.mem_map.1 hmem
    rw [parent?_of_mem_children h hstacked hs' hc, Option.some.injEq] at hparent
    have hdistinct : (m.root.subtrees.map fun s => s.value.number).Nodup := by
      have hnumbers := h.distinct
      rwa [← Tree.map_value_subtrees, List.map_map] at hnumbers
    have hsame : s' = s :=
      List.inj_on_of_nodup_map hdistinct hs' hs (congrArg Node.number hparent)
    rw [← hsame]
    exact hmem

theorem reaches_root (h : Placed m.root) (hstacked : ∀ s ∈ m.root.subtrees, Stacked s) :
    ∀ n ∈ m.nodes, Relation.ReflTransGen (fun a b => m.parent? a = some b) n m.root.value := by
  intro n hn
  rw [nodes, ← Tree.map_value_subtrees] at hn
  obtain ⟨s, hs, rfl⟩ := List.mem_map.1 hn
  refine Tree.forall_subtrees (P := fun s =>
    Relation.ReflTransGen (fun a b => m.parent? a = some b) s.value m.root.value) m.root
    Relation.ReflTransGen.refl (fun s hs hup c hc => ?_) s hs
  exact hup.head (parent?_of_mem_children h hstacked hs hc)

/-! ## Elements -/

theorem nodeOfElement?_eq_some_iff {a : Address} {n : Node α} :
    m.nodeOfElement? a = some n ↔
      ∃ before after, m.nodes.tail = before ++ n :: after ∧ n.source = a ∧
        ∀ n' ∈ after, n'.source ≠ a := by
  rw [nodeOfElement?, List.getLast?_filter, List.find?_eq_some_iff_append, beq_iff_eq]
  constructor
  · rintro ⟨hn, after, before, hsplit, hafter⟩
    refine ⟨before.reverse, after.reverse, ?_, hn, fun n' hn' => ?_⟩
    · rw [← List.reverse_reverse m.nodes.tail, hsplit]
      simp
    · simpa using hafter n' (List.mem_reverse.1 hn')
  · rintro ⟨before, after, hsplit, hn, hafter⟩
    refine ⟨hn, after.reverse, before.reverse, ?_, fun n' hn' => ?_⟩
    · rw [hsplit]
      simp
    · simpa using hafter n' (List.mem_reverse.1 hn')

theorem nodeOfElement?_isSome_iff {a : Address} :
    (m.nodeOfElement? a).isSome = true ↔ ∃ n ∈ m.nodes.tail, n.source = a := by
  rw [nodeOfElement?, List.getLast?_filter, List.find?_isSome]
  simp

/-! ## Identifiers -/

variable [Coordinate α]

theorem exists_idOf (t : Tolerances α) (container : Address) (layout : Layout α) :
    ∀ n ∈ (build t container layout).nodes.tail, ∃ stem, n.id = Node.idOf stem n.number := by
  intro n hn
  obtain ⟨l, -, d, -, hnode⟩ := exists_source t container layout n hn
  exact ⟨d.category.stem, congrArg Node.id hnode⟩

theorem eq_of_id (t : Tolerances α) (container : Address) (layout : Layout α) {a b : Node α}
    (ha : a ∈ (build t container layout).nodes) (hb : b ∈ (build t container layout).nodes)
    (hid : a.id = b.id) : a = b := by
  have hnames := exists_idOf t container layout
  rcases List.mem_cons.1 ha with rfl | ha' <;> rcases List.mem_cons.1 hb with rfl | hb'
  · rfl
  · obtain ⟨stem, hb⟩ := hnames b hb'
    exact absurd (hid.trans hb).symm (Node.idOf_ne_root stem b.number)
  · obtain ⟨stem, ha⟩ := hnames a ha'
    exact absurd (ha.symm.trans hid) (Node.idOf_ne_root stem a.number)
  · obtain ⟨s, hs⟩ := hnames a ha'
    obtain ⟨u, hu⟩ := hnames b hb'
    rw [hs, hu] at hid
    exact (placed_build t container layout).eq_of_number ha hb (Node.number_eq_of_idOf_eq hid)

/-! ## Atoms -/

/-- An atom is a node of an atomic kind that is a bar or has a text. -/
theorem atoms_build (t : Tolerances α) (container : Address) (layout : Layout α) :
    (build t container layout).atoms =
      (build t container layout).nodes.tail.filter fun n =>
        n.kind.isAtomic && (n.kind = .fracBar || !n.text.isEmpty) := by
  have hroot : (build t container layout).atoms =
      (build t container layout).nodes.tail.filter (·.atom) := rfl
  rw [hroot]
  refine List.filter_congr fun n hn => ?_
  obtain ⟨l, -, d, hshows, hnode⟩ := exists_source t container layout n hn
  have hatomic := Category.atomic_of_mem_known d.category hshows.category_mem_known
  rw [hnode]
  show ((d.category.atomic || d.category.kind.isAtomic) && _) = (d.category.kind.isAtomic && _)
  rw [hatomic, Bool.or_self]
  rfl

/-! ## Built maps -/

/-- What holds of a map of a layout, with what has been collected while it was built. -/
structure WellFormed (layout : Layout α) (m : SurfaceMap α) (r : Register α) : Prop where
  ids_nodup : (m.nodes.map (·.id)).Nodup
  id_root : m.root.value.id = "root"
  id_ne_root : ∀ n ∈ m.nodes.tail, n.id ≠ "root"
  /-- The lists of children have every node but the root, and have it once. -/
  children_once : (m.root.subtrees.flatMap fun s => s.children.map Tree.value).Perm m.nodes.tail
  /-- The list that a node is in is that of its parent. -/
  child_iff : ∀ s ∈ m.root.subtrees, ∀ n ∈ m.nodes.tail,
    n ∈ s.children.map Tree.value ↔ m.parent? n = some s.value
  parent_root : m.parent? m.root.value = none
  ascends : ∀ n ∈ m.nodes, Relation.ReflTransGen (fun a b => m.parent? a = some b) n m.root.value
  atoms_eq : r.atoms = m.nodes.tail.filter fun n =>
    n.kind.isAtomic && (n.kind = .fracBar || !n.text.isEmpty)
  /-- What a node is made from is an element below the container. -/
  source : ∀ n ∈ m.nodes.tail, ∃ l, Tree.ReachesBelow m.container layout n.source l ∧ n.MadeFrom l
  /-- An element has the last of the nodes that are made from it. -/
  index_eq_some_iff : ∀ a n, r.index a = some n ↔
    ∃ before after, m.nodes.tail = before ++ n :: after ∧ n.source = a ∧
      ∀ n' ∈ after, n'.source ≠ a
  index_isSome_iff : ∀ a, (r.index a).isSome = true ↔ ∃ n ∈ m.nodes.tail, n.source = a

/-- One pass over a layout builds the map and collects its atoms and elements, and the map
is well formed. -/
theorem wellFormed_build (t : Tolerances α) (container : Address) (layout : Layout α) :
    ∃ r, onePass t container layout = (build t container layout, r) ∧
      r.atoms = (build t container layout).atoms ∧
      r.index = (build t container layout).nodeOfElement? ∧
      WellFormed layout (build t container layout) r := by
  have hatoms := onePass_atoms t container layout
  have hindex := onePass_index t container layout
  have hplaced := placed_build t container layout
  have hstacked := stacked_build t container layout
  refine ⟨(onePass t container layout).2, ?_, hatoms, funext hindex, ?_⟩
  · rw [onePass_eq]
  · exact {
      ids_nodup := List.Nodup.map_on (fun a ha b hb => eq_of_id t container layout ha hb)
        (List.Nodup.of_map _ hplaced.distinct)
      id_root := rfl
      id_ne_root := fun n hn => by
        obtain ⟨stem, hid⟩ := exists_idOf t container layout n hn
        rw [hid]
        exact Node.idOf_ne_root stem n.number
      children_once := Tree.children_perm _
      child_iff := fun s hs n hn => mem_children_iff hplaced hstacked hs hn
      parent_root := rfl
      ascends := reaches_root hplaced hstacked
      atoms_eq := by rw [hatoms, atoms_build]
      source := exists_source t container layout
      index_eq_some_iff := fun a n => by rw [hindex, nodeOfElement?_eq_some_iff]
      index_isSome_iff := fun a => by rw [hindex, nodeOfElement?_isSome_iff] }

end SurfaceMap
end FormulaMap

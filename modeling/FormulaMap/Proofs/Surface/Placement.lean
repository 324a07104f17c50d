/-
Where the nodes of a map stand.

A node knows its number in the walk and the numbers above it.  In a map that has just
been built the numbers are those of the preorder, so no two nodes share one, and the
number of a leaf stands above no node (`placed_build`).  What happens to a map later
changes nodes in place (`Changes`) and leaves both alone, so the two facts hold of
every map, and a change to one leaf can be told from a change to another by number.
-/
import FormulaMap.Surface.Build
import Mathlib.Data.List.Nodup

namespace FormulaMap

namespace Tree

variable {α β γ : Type}

mutual

theorem map_map (g : β → γ) (f : α → β) : ∀ t : Tree α, (t.map f).map g = t.map (g ∘ f)
  | node a cs => by rw [map, map, map, mapAll_mapAll g f cs, Function.comp_apply]

theorem mapAll_mapAll (g : β → γ) (f : α → β) :
    ∀ ts : List (Tree α), mapAll g (mapAll f ts) = mapAll (g ∘ f) ts
  | [] => rfl
  | t :: ts => by rw [mapAll, mapAll, mapAll, map_map g f t, mapAll_mapAll g f ts]

end

mutual

theorem map_id : ∀ t : Tree α, t.map id = t
  | node a cs => by rw [map, mapAll_id cs, id]

theorem mapAll_id : ∀ ts : List (Tree α), mapAll id ts = ts
  | [] => rfl
  | t :: ts => by rw [mapAll, map_id t, mapAll_id ts]

end

mutual

theorem leaves_map (f : α → β) : ∀ t : Tree α, (t.map f).leaves = t.leaves.map f
  | node a [] => rfl
  | node a (t :: ts) => by
    show leavesAll (mapAll f (t :: ts)) = (leavesAll (t :: ts)).map f
    exact leavesAll_map f (t :: ts)

theorem leavesAll_map (f : α → β) :
    ∀ ts : List (Tree α), leavesAll (mapAll f ts) = (leavesAll ts).map f
  | [] => rfl
  | t :: ts => by rw [mapAll, leavesAll, leavesAll, leaves_map f t, leavesAll_map f ts,
      List.map_append]

end

theorem preorderAll_append (ts us : List (Tree α)) :
    preorderAll (ts ++ us) = preorderAll ts ++ preorderAll us := by
  induction ts with
  | nil => rfl
  | cons t ts ih => rw [List.cons_append, preorderAll, preorderAll, ih, List.append_assoc]

theorem leavesAll_append (ts us : List (Tree α)) :
    leavesAll (ts ++ us) = leavesAll ts ++ leavesAll us := by
  induction ts with
  | nil => rfl
  | cons t ts ih => rw [List.cons_append, leavesAll, leavesAll, ih, List.append_assoc]

mutual

theorem leaves_sublist_preorder : ∀ t : Tree α, t.leaves.Sublist t.preorder
  | node _ [] => List.Sublist.refl _
  | node a (t :: ts) => (leavesAll_sublist_preorderAll (t :: ts)).cons a

theorem leavesAll_sublist_preorderAll :
    ∀ ts : List (Tree α), (leavesAll ts).Sublist (preorderAll ts)
  | [] => List.Sublist.refl _
  | t :: ts => (leaves_sublist_preorder t).append (leavesAll_sublist_preorderAll ts)

end

/-! ### Trees side by side -/

theorem preorderAll_leafs (ns : List α) : preorderAll (ns.map fun n => node n []) = ns := by
  induction ns with
  | nil => rfl
  | cons n ns ih =>
    rw [List.map_cons, preorderAll, preorder, ih]
    rfl

theorem leavesAll_leafs (ns : List α) : leavesAll (ns.map fun n => node n []) = ns := by
  induction ns with
  | nil => rfl
  | cons n ns ih =>
    rw [List.map_cons, leavesAll, leaves, ih]
    rfl

theorem mapAll_leafs (f : α → β) (ns : List α) :
    mapAll f (ns.map fun n => node n []) = (ns.map f).map fun n => node n [] := by
  rw [mapAll_eq, List.map_map, List.map_map]
  rfl

mutual

theorem map_congr {f g : α → β} :
    ∀ t : Tree α, (∀ a ∈ t.preorder, f a = g a) → t.map f = t.map g
  | node a cs, h => by
    rw [map, map, h a List.mem_cons_self, mapAll_congr cs fun b hb => h b (List.mem_cons_of_mem a hb)]

theorem mapAll_congr {f g : α → β} :
    ∀ ts : List (Tree α), (∀ a ∈ preorderAll ts, f a = g a) → mapAll f ts = mapAll g ts
  | [], _ => rfl
  | t :: ts, h => by
    rw [mapAll, mapAll, map_congr t fun a ha => h a (List.mem_append_left _ ha),
      mapAll_congr ts fun a ha => h a (List.mem_append_right _ ha)]

end

theorem leaves_of_ne_nil (a : α) {ts : List (Tree α)} (hne : ts ≠ []) :
    leaves (node a ts) = leavesAll ts := by
  cases ts with
  | nil => exact absurd rfl hne
  | cons t ts => rfl

end Tree

namespace Draft

variable {α : Type}

/-! ## Drafts are placed as they are -/

section
variable {β : Type} {f : Node α → β} {g : Draft α → β}

mutual

/-- What does not depend on where a node stands is that of its draft. -/
theorem map_place (h : ∀ d above k, f (d.node above k) = g d) (above : List Nat) (k : Nat) :
    ∀ t : Tree (Draft α), (place above k t).map f = t.map g
  | .node d ts => by
    rw [place, Tree.map, Tree.map, h, mapAll_placeAll h (k :: above) (k + 1) ts]

theorem mapAll_placeAll (h : ∀ d above k, f (d.node above k) = g d) (above : List Nat) (k : Nat) :
    ∀ ts : List (Tree (Draft α)), Tree.mapAll f (placeAll above k ts) = Tree.mapAll g ts
  | [] => rfl
  | t :: ts => by
    rw [placeAll, Tree.mapAll, Tree.mapAll, map_place h above k t,
      mapAll_placeAll h above (k + t.size) ts]

end

end

/-! ## Numbers are given in preorder -/

mutual

theorem numbers_place (above : List Nat) (k : Nat) :
    ∀ t : Tree (Draft α), (place above k t).preorder.map (·.number) = List.range' k t.size
  | .node d ts => by
    rw [place, Tree.preorder, List.map_cons, numbers_placeAll (k :: above) (k + 1) ts, Tree.size,
      List.range'_succ]
    rfl

theorem numbers_placeAll (above : List Nat) (k : Nat) :
    ∀ ts : List (Tree (Draft α)),
      (Tree.preorderAll (placeAll above k ts)).map (·.number) = List.range' k (Tree.sizeAll ts)
  | [] => rfl
  | t :: ts => by
    rw [placeAll, Tree.preorderAll, List.map_append, numbers_place above k t,
      numbers_placeAll above (k + t.size) ts, Tree.sizeAll, ← List.range'_append_1]

end

theorem number_mem_place {above : List Nat} {k : Nat} {t : Tree (Draft α)} {n : Node α}
    (h : n ∈ (place above k t).preorder) : k ≤ n.number ∧ n.number < k + t.size := by
  have hmem := List.mem_map_of_mem (f := fun n : Node α => n.number) h
  rwa [numbers_place, List.mem_range'_1] at hmem

theorem number_mem_placeAll {above : List Nat} {k : Nat} {ts : List (Tree (Draft α))} {n : Node α}
    (h : n ∈ Tree.preorderAll (placeAll above k ts)) :
    k ≤ n.number ∧ n.number < k + Tree.sizeAll ts := by
  have hmem := List.mem_map_of_mem (f := fun n : Node α => n.number) h
  rwa [numbers_placeAll, List.mem_range'_1] at hmem

/-! ## What stands above -/

mutual

/-- Above a node stand what stood above the tree, and nodes of the tree. -/
theorem above_mem_place (above : List Nat) (k : Nat) :
    ∀ (t : Tree (Draft α)), ∀ n ∈ (place above k t).preorder, ∀ a ∈ n.above,
      a ∈ above ∨ (k ≤ a ∧ a < k + t.size)
  | .node d ts => by
    intro n hn a ha
    rw [place, Tree.preorder] at hn
    rw [Tree.size]
    rcases List.mem_cons.1 hn with rfl | hn
    · exact Or.inl ha
    · rcases above_mem_placeAll (k :: above) (k + 1) ts n hn a ha with hmem | hrange
      · rcases List.mem_cons.1 hmem with rfl | hmem
        · exact Or.inr ⟨Nat.le_refl _, by omega⟩
        · exact Or.inl hmem
      · exact Or.inr ⟨by omega, by omega⟩

theorem above_mem_placeAll (above : List Nat) (k : Nat) :
    ∀ (ts : List (Tree (Draft α))), ∀ n ∈ Tree.preorderAll (placeAll above k ts), ∀ a ∈ n.above,
      a ∈ above ∨ (k ≤ a ∧ a < k + Tree.sizeAll ts)
  | [] => by
    intro n hn
    exact absurd hn List.not_mem_nil
  | t :: ts => by
    intro n hn a ha
    rw [placeAll, Tree.preorderAll] at hn
    rw [Tree.sizeAll]
    rcases List.mem_append.1 hn with hn | hn
    · rcases above_mem_place above k t n hn a ha with hmem | hrange
      · exact Or.inl hmem
      · exact Or.inr ⟨hrange.1, by omega⟩
    · rcases above_mem_placeAll above (k + t.size) ts n hn a ha with hmem | hrange
      · exact Or.inl hmem
      · exact Or.inr ⟨by omega, by omega⟩

end

mutual

/-- A leaf stands above no node of its tree. -/
theorem leaf_apart_place (above : List Nat) (k : Nat) (hk : ∀ a ∈ above, a < k) :
    ∀ (t : Tree (Draft α)), ∀ l ∈ (place above k t).leaves, ∀ n ∈ (place above k t).preorder,
      l.number ∉ n.above
  | .node d [] => by
    intro l hl n hn habove
    rw [place, placeAll, Tree.leaves, List.mem_singleton] at hl
    rw [place, placeAll, Tree.preorder, Tree.preorderAll, List.mem_singleton] at hn
    rw [hl, hn] at habove
    exact absurd (hk _ habove) (Nat.lt_irrefl k)
  | .node d (t :: ts) => by
    intro l hl n hn habove
    have hk' : ∀ a ∈ k :: above, a < k + 1 := by
      intro a ha
      rcases List.mem_cons.1 ha with rfl | ha
      · exact Nat.lt_succ_self _
      · exact Nat.lt_succ_of_lt (hk a ha)
    have hl' : l ∈ Tree.leavesAll (placeAll (k :: above) (k + 1) (t :: ts)) := hl
    have hlow := (number_mem_placeAll ((Tree.leavesAll_sublist_preorderAll _).subset hl')).1
    rw [place, Tree.preorder] at hn
    rcases List.mem_cons.1 hn with rfl | hn
    · exact absurd (hk _ habove) (by omega)
    · exact leaf_apart_placeAll (k :: above) (k + 1) hk' (t :: ts) l hl' n hn habove

theorem leaf_apart_placeAll (above : List Nat) (k : Nat) (hk : ∀ a ∈ above, a < k) :
    ∀ (ts : List (Tree (Draft α))), ∀ l ∈ Tree.leavesAll (placeAll above k ts),
      ∀ n ∈ Tree.preorderAll (placeAll above k ts), l.number ∉ n.above
  | [] => by
    intro l hl
    exact absurd hl List.not_mem_nil
  | t :: ts => by
    intro l hl n hn habove
    have hk' : ∀ a ∈ above, a < k + t.size := fun a ha => Nat.lt_of_lt_of_le (hk a ha) (by omega)
    rw [placeAll, Tree.leavesAll] at hl
    rw [placeAll, Tree.preorderAll] at hn
    -- a leaf and a node of different trees are told apart by their ranges of numbers
    rcases List.mem_append.1 hl with hl | hl <;> rcases List.mem_append.1 hn with hn | hn
    · exact leaf_apart_place above k hk t l hl n hn habove
    · have hrange := number_mem_place ((Tree.leaves_sublist_preorder _).subset hl)
      rcases above_mem_placeAll above (k + t.size) ts n hn _ habove with hmem | hlater
      · exact absurd (hk _ hmem) (by omega)
      · omega
    · have hrange := number_mem_placeAll ((Tree.leavesAll_sublist_preorderAll _).subset hl)
      rcases above_mem_place above k t n hn _ habove with hmem | hearlier
      · exact absurd (hk _ hmem) (by omega)
      · omega
    · exact leaf_apart_placeAll above (k + t.size) hk' ts l hl n hn habove

end

end Draft

/-! ## Maps -/

variable {α : Type}

/-- Numbers tell the nodes apart, and no node lies below a leaf. -/
structure Placed (t : Tree (Node α)) : Prop where
  distinct : (t.preorder.map (·.number)).Nodup
  apart : ∀ l ∈ t.leaves, ∀ n ∈ t.preorder, l.number ∉ n.above

theorem Placed.eq_of_number {t : Tree (Node α)} (h : Placed t) {a b : Node α}
    (ha : a ∈ t.preorder) (hb : b ∈ t.preorder) (hnumber : a.number = b.number) : a = b :=
  List.inj_on_of_nodup_map h.distinct ha hb hnumber

/-- What has a key of its own is found by it. -/
theorem find?_key {β : Type} (key : β → Nat) {xs : List β} (hdistinct : (xs.map key).Nodup)
    {x : β} (hx : x ∈ xs) : xs.find? (fun y => key y == key x) = some x := by
  have hfound : (xs.find? fun y => key y == key x).isSome = true :=
    List.find?_isSome.2 ⟨x, hx, beq_self_eq_true (key x)⟩
  obtain ⟨y, hy⟩ := Option.isSome_iff_exists.1 hfound
  have hkey := List.find?_some hy
  rw [hy, List.inj_on_of_nodup_map hdistinct (List.mem_of_find?_eq_some hy) hx
    (beq_iff_eq.1 hkey)]

/-- A node is found by its number. -/
theorem find?_number {ns : List (Node α)} (hdistinct : (ns.map (·.number)).Nodup) {n : Node α}
    (hn : n ∈ ns) : ns.find? (·.number == n.number) = some n :=
  find?_key Node.number hdistinct hn

namespace SurfaceMap

theorem nodes_mapNodes (f : Node α → Node α) (m : SurfaceMap α) :
    (m.mapNodes f).nodes = m.nodes.map f :=
  Tree.preorder_map f m.root

theorem mapNodes_eq_self_iff {f : Node α → Node α} {m : SurfaceMap α} :
    m.mapNodes f = m ↔ ∀ n ∈ m.nodes, f n = n := by
  constructor
  · intro hsame n hn
    have hnodes : m.nodes.map f = m.nodes.map id := by
      rw [← nodes_mapNodes, hsame, List.map_id]
    exact List.map_inj_left.1 hnodes n hn
  · intro hfixed
    have hroot := (Tree.map_congr m.root (g := id) hfixed).trans (Tree.map_id m.root)
    rw [mapNodes, hroot]

/-- A change of nodes that keeps their numbers is seen at every number. -/
theorem nodeAt?_mapNodes {f : Node α → Node α} (hf : ∀ n, (f n).number = n.number)
    (m : SurfaceMap α) (k : Nat) : (m.mapNodes f).nodeAt? k = (m.nodeAt? k).map f := by
  have htest : (fun n : Node α => n.number == k) ∘ f = fun n => n.number == k :=
    funext fun n => by rw [Function.comp_apply, hf]
  rw [nodeAt?, nodes_mapNodes, List.find?_map, htest]
  rfl

theorem number_of_nodeAt? {m : SurfaceMap α} {k : Nat} {n : Node α} (h : m.nodeAt? k = some n) :
    n.number = k := by
  have htest := List.find?_some h
  exact beq_iff_eq.1 htest

/-! ## Changes in place -/

/-- Every node is changed in its place, and as the relation allows. -/
def Changes (R : Node α → Node α → Prop) (m m' : SurfaceMap α) : Prop :=
  ∃ f, m' = m.mapNodes f ∧ ∀ n ∈ m.nodes, R n (f n)

namespace Changes

variable {R S : Node α → Node α → Prop} {m m' m'' : SurfaceMap α}

theorem refl (h : ∀ n, R n n) (m : SurfaceMap α) : Changes R m m := by
  refine ⟨id, ?_, fun n _ => h n⟩
  rw [mapNodes, Tree.map_id]

theorem trans (hR : ∀ a b c, R a b → R b c → R a c) (h : Changes R m m')
    (h' : Changes R m' m'') : Changes R m m'' := by
  obtain ⟨f, rfl, hf⟩ := h
  obtain ⟨g, rfl, hg⟩ := h'
  refine ⟨g ∘ f, ?_, ?_⟩
  · unfold mapNodes
    rw [Tree.map_map]
  · intro n hn
    have hmem : f n ∈ (m.mapNodes f).nodes := by
      rw [nodes_mapNodes]
      exact List.mem_map_of_mem hn
    exact hR n (f n) (g (f n)) (hf n hn) (hg (f n) hmem)

theorem mono (h : Changes R m m') (hRS : ∀ a b, R a b → S a b) : Changes S m m' := by
  obtain ⟨f, rfl, hf⟩ := h
  exact ⟨f, rfl, fun n hn => hRS n (f n) (hf n hn)⟩

theorem exists_of_mem_nodes (h : Changes R m m') {n' : Node α} (hn' : n' ∈ m'.nodes) :
    ∃ n ∈ m.nodes, R n n' := by
  obtain ⟨f, rfl, hf⟩ := h
  rw [nodes_mapNodes] at hn'
  obtain ⟨n, hn, rfl⟩ := List.mem_map.1 hn'
  exact ⟨n, hn, hf n hn⟩

theorem exists_of_mem_leaves (h : Changes R m m') {n' : Node α} (hn' : n' ∈ m'.root.leaves) :
    ∃ n ∈ m.root.leaves, R n n' := by
  obtain ⟨f, rfl, hf⟩ := h
  rw [mapNodes, Tree.leaves_map] at hn'
  obtain ⟨n, hn, rfl⟩ := List.mem_map.1 hn'
  exact ⟨n, hn, hf n ((Tree.leaves_sublist_preorder m.root).subset hn)⟩

theorem placed (h : Changes R m m')
    (hR : ∀ a b, R a b → b.number = a.number ∧ b.above = a.above) (hm : Placed m.root) :
    Placed m'.root := by
  obtain ⟨f, rfl, hf⟩ := h
  have hkeep : ∀ n ∈ m.root.preorder, (f n).number = n.number ∧ (f n).above = n.above :=
    fun n hn => hR n (f n) (hf n hn)
  constructor
  · have hnumbers : m.root.preorder.map ((fun n : Node α => n.number) ∘ f) =
        m.root.preorder.map (·.number) := List.map_congr_left fun n hn => (hkeep n hn).1
    show ((m.root.map f).preorder.map (·.number)).Nodup
    rw [Tree.preorder_map, List.map_map, hnumbers]
    exact hm.distinct
  · show ∀ l ∈ (m.root.map f).leaves, ∀ n ∈ (m.root.map f).preorder, l.number ∉ n.above
    rw [Tree.leaves_map, Tree.preorder_map]
    intro l hl n hn
    obtain ⟨l', hl', rfl⟩ := List.mem_map.1 hl
    obtain ⟨n', hn', rfl⟩ := List.mem_map.1 hn
    rw [(hkeep l' ((Tree.leaves_sublist_preorder m.root).subset hl')).1, (hkeep n' hn').2]
    exact hm.apart l' hl' n' hn'

end Changes

/-! ## The map of a layout -/

theorem placed_build [Coordinate α] (t : Tolerances α) (container : Address) (layout : Layout α) :
    Placed (build t container layout).root := by
  unfold build
  dsimp only
  generalize (layout.select formulaClass groupClass container).flatMap _ = drafts
  have hroot : (0 : Nat) ∉ (Tree.preorderAll (Draft.placeAll [0] 1 drafts)).map (·.number) := by
    rw [Draft.numbers_placeAll, List.mem_range'_1]
    omega
  constructor
  · rw [Tree.preorder, List.map_cons, List.nodup_cons]
    refine ⟨hroot, ?_⟩
    rw [Draft.numbers_placeAll]
    exact List.nodup_range'
  · intro l hl n hn
    cases drafts with
    | nil =>
      rw [Draft.placeAll, Tree.preorder, Tree.preorderAll, List.mem_singleton] at hn
      rw [hn]
      exact List.not_mem_nil
    | cons d ds =>
      have hl' : l ∈ Tree.leavesAll (Draft.placeAll [0] 1 (d :: ds)) := hl
      rw [Tree.preorder] at hn
      rcases List.mem_cons.1 hn with rfl | hn
      · exact List.not_mem_nil
      · exact Draft.leaf_apart_placeAll [0] 1 (by simp) (d :: ds) l hl' n hn

end SurfaceMap
end FormulaMap

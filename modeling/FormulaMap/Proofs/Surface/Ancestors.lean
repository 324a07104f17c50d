/-
Ancestors among the nodes of a map.

A node knows the numbers above it, nearest first.  In a built map they are lower than its
own, and below the number of an ancestor stand the numbers that are above that ancestor
(`ancestral_build`).  Both are kept when nodes change in place (`Changes.ancestral`).  So to
stand above is a strict order that goes with the numbers, and of two nodes that stand
above a third one is above the other (`Ancestral.comparable`).
-/
import FormulaMap.Proofs.Order
import FormulaMap.Proofs.Surface.WellFormed

namespace FormulaMap

variable {α : Type}

theorem Node.isAbove_iff {a b : Node α} : a.isAbove b = true ↔ a.number ∈ b.above :=
  List.contains_iff_mem

namespace Draft

mutual

theorem above_lt_place (above : List Nat) (k : Nat) (hk : ∀ a ∈ above, a < k) :
    ∀ t : Tree (Draft α), ∀ n ∈ (place above k t).preorder, ∀ a ∈ n.above, a < n.number
  | .node d ts => by
    intro n hn
    rw [place, Tree.preorder] at hn
    rcases List.mem_cons.1 hn with rfl | hn
    · exact hk
    · refine above_lt_placeAll (k :: above) (k + 1) (fun a ha => ?_) ts n hn
      rcases List.mem_cons.1 ha with rfl | ha
      · exact Nat.lt_succ_self a
      · exact Nat.lt_succ_of_lt (hk a ha)

theorem above_lt_placeAll (above : List Nat) (k : Nat) (hk : ∀ a ∈ above, a < k) :
    ∀ ts : List (Tree (Draft α)), ∀ n ∈ Tree.preorderAll (placeAll above k ts),
      ∀ a ∈ n.above, a < n.number
  | [] => by
    intro n hn
    exact absurd hn List.not_mem_nil
  | t :: ts => by
    intro n hn
    rw [placeAll, Tree.preorderAll] at hn
    rcases List.mem_append.1 hn with hn | hn
    · exact above_lt_place above k hk t n hn
    · exact above_lt_placeAll above (k + t.size) (fun a ha => by have := hk a ha; omega) ts n hn

end

end Draft

namespace SurfaceMap

/-- Numbers are given in preorder, and what stands above a node are its ancestors, in order. -/
structure Ancestral (m : SurfaceMap α) : Prop where
  ascending : (m.nodes.map (·.number)).Pairwise (· < ·)
  forward : ∀ n ∈ m.nodes, ∀ k ∈ n.above, k < n.number
  chained : ∀ a ∈ m.nodes, ∀ b ∈ m.nodes, a.isAbove b = true → a.number :: a.above <:+ b.above

variable {m : SurfaceMap α} {a b c : Node α}

theorem mem_nodes_of_mem_atoms (ha : a ∈ m.atoms) : a ∈ m.nodes := (List.mem_filter.1 ha).1

/-! ## The order of ancestors -/

namespace Ancestral

theorem eq_of_number (h : Ancestral m) (ha : a ∈ m.nodes) (hb : b ∈ m.nodes)
    (hnumber : a.number = b.number) : a = b :=
  List.inj_on_of_nodup_map (h.ascending.imp Nat.ne_of_lt) ha hb hnumber

theorem number_lt (h : Ancestral m) (hb : b ∈ m.nodes) (hab : a.isAbove b = true) :
    a.number < b.number :=
  h.forward b hb a.number (Node.isAbove_iff.1 hab)

/-- A node is deeper than those above it. -/
theorem depth_lt (h : Ancestral m) (ha : a ∈ m.nodes) (hb : b ∈ m.nodes)
    (hab : a.isAbove b = true) : a.depth < b.depth := by
  have hlength := (h.chained a ha b hb hab).length_le
  rwa [List.length_cons] at hlength

theorem not_isAbove_self (h : Ancestral m) (ha : a ∈ m.nodes) : a.isAbove a = false :=
  Bool.eq_false_iff.2 fun hself => Nat.lt_irrefl _ (h.number_lt ha hself)

theorem asymm (h : Ancestral m) (ha : a ∈ m.nodes) (hb : b ∈ m.nodes) (hab : a.isAbove b = true) :
    b.isAbove a = false :=
  Bool.eq_false_iff.2 fun hba => Nat.lt_asymm (h.number_lt hb hab) (h.number_lt ha hba)

theorem trans (h : Ancestral m) (hb : b ∈ m.nodes) (hc : c ∈ m.nodes) (hab : a.isAbove b = true)
    (hbc : b.isAbove c = true) : a.isAbove c = true := by
  rw [Node.isAbove_iff] at hab ⊢
  exact (h.chained b hb c hc hbc).subset (List.mem_cons_of_mem _ hab)

/-- Of two nodes above a third, one stands above the other. -/
theorem comparable (h : Ancestral m) (ha : a ∈ m.nodes) (hb : b ∈ m.nodes) (hc : c ∈ m.nodes)
    (hac : a.isAbove c = true) (hbc : b.isAbove c = true) :
    a = b ∨ a.isAbove b = true ∨ b.isAbove a = true := by
  have hsuffixes := List.suffix_or_suffix_of_suffix (h.chained a ha c hc hac)
    (h.chained b hb c hc hbc)
  -- the shorter chain is the longer one, or all of it is above the other node
  rcases hsuffixes with hsuffix | hsuffix <;> rcases List.suffix_cons_iff.1 hsuffix with heq | hin
  · exact Or.inl (h.eq_of_number ha hb (List.cons.inj heq).1)
  · exact Or.inr (Or.inl (Node.isAbove_iff.2 (hin.subset List.mem_cons_self)))
  · exact Or.inl (h.eq_of_number ha hb (List.cons.inj heq).1.symm)
  · exact Or.inr (Or.inr (Node.isAbove_iff.2 (hin.subset List.mem_cons_self)))

/-- Atoms come in the order of their numbers. -/
theorem atoms_pairwise (h : Ancestral m) : m.atoms.Pairwise fun a b => a.number < b.number :=
  (List.pairwise_map.1 h.ascending).sublist List.filter_sublist

theorem nodup_atoms (h : Ancestral m) : m.atoms.Nodup :=
  List.Nodup.of_map (·.number) (List.pairwise_map.2 (h.atoms_pairwise.imp Nat.ne_of_lt))

/-- An atom comes before the atoms below it. -/
theorem pair_sublist_atoms (h : Ancestral m) (ha : a ∈ m.atoms) (hb : b ∈ m.atoms)
    (hab : a.isAbove b = true) : [a, b].Sublist m.atoms := by
  have hlt := h.number_lt (mem_nodes_of_mem_atoms hb) hab
  have hne : a ≠ b := by
    rintro rfl
    exact Nat.lt_irrefl _ hlt
  refine (pair_sublist_or ha hb hne).resolve_right fun hturned => ?_
  exact Nat.lt_asymm hlt (List.pairwise_iff_forall_sublist.1 h.atoms_pairwise hturned)

end Ancestral

/-- Changes in place leave ancestors as they are. -/
theorem Changes.ancestral {m' : SurfaceMap α} {R : Node α → Node α → Prop} (h : Changes R m m')
    (hR : ∀ a b, R a b → b.number = a.number ∧ b.above = a.above) (hm : Ancestral m) :
    Ancestral m' := by
  obtain ⟨f, rfl, hf⟩ := h
  have hkeep : ∀ n ∈ m.nodes, (f n).number = n.number ∧ (f n).above = n.above :=
    fun n hn => hR n (f n) (hf n hn)
  have hmem : ∀ n' ∈ (m.mapNodes f).nodes, ∃ n ∈ m.nodes, f n = n' := by
    intro n' hn'
    rw [nodes_mapNodes] at hn'
    exact List.mem_map.1 hn'
  constructor
  · have hnumbers : m.nodes.map ((fun n : Node α => n.number) ∘ f) = m.nodes.map (·.number) :=
      List.map_congr_left fun n hn => (hkeep n hn).1
    rw [nodes_mapNodes, List.map_map, hnumbers]
    exact hm.ascending
  · intro n' hn'
    obtain ⟨n, hn, rfl⟩ := hmem n' hn'
    rw [(hkeep n hn).1, (hkeep n hn).2]
    exact hm.forward n hn
  · intro a' ha' b' hb'
    obtain ⟨a, ha, rfl⟩ := hmem a' ha'
    obtain ⟨b, hb, rfl⟩ := hmem b' hb'
    rw [Node.isAbove_iff, (hkeep a ha).1, (hkeep a ha).2, (hkeep b hb).2, ← Node.isAbove_iff]
    exact hm.chained a ha b hb

/-! ## Built maps -/

variable [Coordinate α]

theorem ancestral_build (t : Tolerances α) (container : Address) (layout : Layout α) :
    Ancestral (build t container layout) := by
  have hplaced := placed_build t container layout
  have hstacked := stacked_build t container layout
  constructor
  · unfold build
    dsimp only
    rw [nodes, Tree.preorder, List.map_cons, Draft.numbers_placeAll, List.pairwise_cons]
    refine ⟨fun k hk => ?_, List.pairwise_lt_range'⟩
    exact (List.mem_range'_1.1 hk).1
  · intro n hn
    rcases List.mem_cons.1 hn with rfl | hn
    · exact fun k hk => absurd hk List.not_mem_nil
    · refine Draft.above_lt_placeAll [0] 1 (fun k hk => ?_) _ n hn
      rw [List.mem_singleton.1 hk]
      exact Nat.one_pos
  · -- from the root down, a child has its parent on top of what is above the parent
    intro a ha b hb
    rw [nodes, ← Tree.map_value_subtrees] at hb
    obtain ⟨s, hs, rfl⟩ := List.mem_map.1 hb
    refine Tree.forall_subtrees (P := fun s => a.isAbove s.value = true →
      a.number :: a.above <:+ s.value.above) _ ?_ (fun s hs hchain c hc habove => ?_) s hs
    · intro habove
      exact absurd (Node.isAbove_iff.1 habove) List.not_mem_nil
    · rw [hstacked s hs c hc]
      rw [Node.isAbove_iff, hstacked s hs c hc] at habove
      rcases List.mem_cons.1 habove with hparent | habove
      · obtain rfl := hplaced.eq_of_number ha (value_mem_nodes hs) hparent
        exact List.suffix_refl _
      · exact (hchain (Node.isAbove_iff.2 habove)).trans (List.suffix_cons _ _)

end SurfaceMap
end FormulaMap

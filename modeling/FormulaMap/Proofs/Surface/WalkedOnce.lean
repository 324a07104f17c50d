/-
Walking elements once.

A node that is made from a whole element should be the only one, and the segments of a
text should be cut once (`WalkedOnce`).  The walk starts from every group, and a group
inside another one is walked again from there, so its elements leave a copy of their
nodes for every group that they lie in (`madeFrom_build`).  Elements are walked once
exactly when the groups inside other groups leave no nodes at all (`walkedOnce_iff`).
-/
import FormulaMap.Proofs.Surface.Visits

namespace FormulaMap

open FormulaMap.Tree (Reaches ReachesBelow)

variable {α : Type}

/-- Where a node comes from and what it shows. -/
def Node.label (n : Node α) : Address × Bool × String := (n.source, n.synthetic, n.text)

def Draft.label (d : Draft α) : Address × Bool × String := (d.source, d.synthetic, d.text)

namespace SurfaceMap

/-- The nodes that are made from an element. -/
def madeFrom (m : SurfaceMap α) (a : Address) : List (Node α) :=
  m.nodes.tail.filter fun n => n.source == a

/-- No element is the source of two nodes, unless they are segments of its text, and
these are the segments of one cut. -/
structure WalkedOnce (layout : Layout α) (m : SurfaceMap α) : Prop where
  whole : ∀ a, ((m.madeFrom a).filter fun n => !n.synthetic).length ≤ 1
  segments : ∀ a l, ReachesBelow m.container layout a l →
    ((m.madeFrom a).filter (·.synthetic)).map (·.text) = [] ∨
      ((m.madeFrom a).filter (·.synthetic)).map (·.text) =
        (Segment.ofString (Text.trim (Layout.content l))).map (·.text)
  atoms : ((m.atoms.filter fun n => !n.synthetic).map (·.source)).Nodup

/-- In a list whose sources are told apart one at a time, no source comes twice. -/
theorem nodup_sources {ns : List (Node α)}
    (h : ∀ a, (ns.filter fun n => n.source == a).length ≤ 1) : (ns.map (·.source)).Nodup := by
  refine List.nodup_iff_count_le_one.2 fun a => ?_
  rw [List.count, List.countP_map, List.countP_eq_length_filter]
  exact h a

/-- Two groups around an element leave two of everything that is made from it. -/
theorem one_lt_length_groupsAround {container a : Address} {layout : Layout α}
    {g g' : Address × Layout α} (hg : g ∈ layout.groups container)
    (hg' : g' ∈ layout.groups container) (hne : g.1 ≠ g'.1) (hin : g.1 <+: g'.1)
    (ha : g'.1 <+: a) : 1 < (layout.groupsAround container a).length := by
  have hmem : g ∈ layout.groupsAround container a :=
    List.mem_filter.2 ⟨hg, List.isPrefixOf_iff_prefix.2 (hin.trans ha)⟩
  have hmem' : g' ∈ layout.groupsAround container a :=
    List.mem_filter.2 ⟨hg', List.isPrefixOf_iff_prefix.2 ha⟩
  match hgs : layout.groupsAround container a with
  | [] => exact absurd (hgs ▸ hmem) List.not_mem_nil
  | [h] =>
    rw [hgs, List.mem_singleton] at hmem hmem'
    exact absurd (congrArg Prod.fst (hmem.trans hmem'.symm)) hne
  | _ :: _ :: _ => exact Nat.succ_lt_succ (Nat.succ_pos _)

variable [Coordinate α]

/-- What the nodes from an element have of their drafts is that of its own drafts, once for
every group that it lies in. -/
theorem map_madeFrom {β : Type} {f : Node α → β} {g : Draft α → β}
    (hfg : ∀ d above number, f (d.node above number) = g d) (t : Tolerances α)
    {container a : Address} {layout s : Layout α} (hs : Reaches container layout a s) :
    ((build t container layout).madeFrom a).map f =
      ((List.replicate (layout.groupsAround container a).length
        (ownDrafts t layout.value.box a s)).flatten).map g := by
  have hpairs : (build t container layout).nodes.tail.map (fun n => (n.source, f n)) =
      (Tree.preorderAll (drafts t container layout)).map fun d => (d.source, g d) := by
    rw [nodes_tail_build, ← Tree.preorderAll_map, ← Tree.preorderAll_map,
      Draft.mapAll_placeAll (g := fun d => (d.source, g d)) fun d above number =>
        congrArg (d.source, ·) (hfg d above number)]
  have hnodes : (((build t container layout).nodes.tail.map fun n => (n.source, f n)).filter
      fun p => p.1 == a).map Prod.snd = ((build t container layout).madeFrom a).map f := by
    rw [List.filter_map, List.map_map]
    rfl
  rw [← hnodes, hpairs, List.filter_map, List.map_map, ← filter_drafts t hs]
  rfl

theorem map_label_madeFrom (t : Tolerances α) {container a : Address} {layout s : Layout α}
    (hs : Reaches container layout a s) :
    ((build t container layout).madeFrom a).map Node.label =
      ((List.replicate (layout.groupsAround container a).length
        (ownDrafts t layout.value.box a s)).flatten).map Draft.label :=
  map_madeFrom (fun _ _ _ => rfl) t hs

/-- From an element that is drafted come as many nodes as groups that it lies in, or as
many cuts of its text. -/
theorem madeFrom_build (t : Tolerances α) {container a : Address} {layout s : Layout α}
    (hs : Reaches container layout a s) :
    let ns := (build t container layout).madeFrom a
    let count := (layout.groupsAround container a).length
    (ownDrafts t layout.value.box a s = [] ∧ ns = []) ∨
      ownDrafts t layout.value.box a s ≠ [] ∧
        ((ns.length = count ∧ ∀ n ∈ ns, n.synthetic = false) ∨
          (Segment.ofString (Text.trim (Layout.content s)) ≠ [] ∧ (∀ n ∈ ns, n.synthetic = true) ∧
            ns.map (·.text) = (List.replicate count
              ((Segment.ofString (Text.trim (Layout.content s))).map (·.text))).flatten)) := by
  intro ns count
  have hlabels : ns.map Node.label =
      ((List.replicate count (ownDrafts t layout.value.box a s)).flatten).map Draft.label :=
    map_label_madeFrom t hs
  have hsynthetic : ns.map (·.synthetic) =
      ((List.replicate count (ownDrafts t layout.value.box a s)).flatten).map (·.synthetic) := by
    have hmap := congrArg (List.map fun p => p.2.1) hlabels
    rwa [List.map_map, List.map_map] at hmap
  have htext : ns.map (·.text) =
      ((List.replicate count (ownDrafts t layout.value.box a s)).flatten).map (·.text) := by
    have hmap := congrArg (List.map fun p => p.2.2) hlabels
    rwa [List.map_map, List.map_map] at hmap
  have hall : ∀ b, (∀ d ∈ ownDrafts t layout.value.box a s, d.synthetic = b) →
      ∀ n ∈ ns, n.synthetic = b := by
    intro b hb n hn
    have hmem := List.mem_map_of_mem (f := fun n : Node α => n.synthetic) hn
    rw [hsynthetic] at hmem
    obtain ⟨d, hd, heq⟩ := List.mem_map.1 hmem
    obtain ⟨ds, hds, hd⟩ := List.mem_flatten.1 hd
    rw [(List.mem_replicate.1 hds).2] at hd
    exact heq.symm.trans (hb d hd)
  have hdrafted := drafted_ownDrafts t layout.value.box a s
  generalize ownDrafts t layout.value.box a s = own at hdrafted hlabels hall htext ⊢
  cases hdrafted with
  | nothing =>
    refine Or.inl ⟨rfl, List.map_eq_nil_iff.1 (hlabels.trans ?_)⟩
    rw [List.flatten_replicate_nil]
    rfl
  | whole d _ hd =>
    refine Or.inr ⟨List.cons_ne_nil d [],
      Or.inl ⟨?_, hall false fun d' hd' => (List.mem_singleton.1 hd') ▸ hd⟩⟩
    have hlength := congrArg List.length hlabels
    simpa using hlength
  | segments _ _ hds htexts =>
    cases own with
    | nil =>
      refine Or.inl ⟨rfl, List.map_eq_nil_iff.1 (hlabels.trans ?_)⟩
      rw [List.flatten_replicate_nil]
      rfl
    | cons d ds =>
      refine Or.inr ⟨List.cons_ne_nil d ds, Or.inr ⟨?_, hall true hds, ?_⟩⟩
      · intro hnil
        rw [hnil] at htexts
        exact List.cons_ne_nil _ _ htexts
      · rw [htext, List.map_flatten, List.map_replicate, htexts]

/-- What is made from no element is not made. -/
theorem madeFrom_eq_nil (t : Tolerances α) {container a : Address} {layout : Layout α}
    (h : ∀ l, ¬ ReachesBelow container layout a l) :
    (build t container layout).madeFrom a = [] := by
  refine List.filter_eq_nil_iff.2 fun n hn heq => ?_
  obtain ⟨l, hl, -⟩ := exists_source t container layout n hn
  exact h l (beq_iff_eq.1 heq ▸ hl)

/-- Groups that an element lies in lie in each other. -/
theorem length_groupsAround_le_one (t : Tolerances α) {container a : Address}
    {layout s : Layout α} (hs : Reaches container layout a s)
    (hown : ownDrafts t layout.value.box a s ≠ [])
    (hnested : ∀ g ∈ layout.groups container, ∀ g' ∈ layout.groups container,
      g.1 <+: g'.1 → g.1 ≠ g'.1 → walk t layout.value.box g'.1 g'.2 = []) :
    (layout.groupsAround container a).length ≤ 1 := by
  have hleaves : ∀ g ∈ layout.groupsAround container a,
      walk t layout.value.box g.1 g.2 ≠ [] := by
    intro g hg hnil
    obtain ⟨hg, hpre⟩ := List.mem_filter.1 hg
    have hin := (Layout.reachesBelow_of_mem_groups hg).reaches.of_prefix
      (List.isPrefixOf_iff_prefix.1 hpre) hs
    have hdrafts := preorderAll_walk t layout.value.box g.1 g.2
    rw [hnil] at hdrafts
    exact hown (List.flatMap_eq_nil_iff.1 hdrafts.symm (a, s) ((Tree.mem_places g.1 g.2 _).2 hin))
  have hsame : ∀ g ∈ layout.groupsAround container a, ∀ g' ∈ layout.groupsAround container a,
      g.1 = g'.1 := by
    intro g hg g' hg'
    obtain ⟨hmem, hpre⟩ := List.mem_filter.1 hg
    obtain ⟨hmem', hpre'⟩ := List.mem_filter.1 hg'
    rw [List.isPrefixOf_iff_prefix] at hpre hpre'
    by_contra hne
    rcases List.prefix_or_prefix_of_prefix hpre hpre' with hin | hin
    · exact hleaves g' hg' (hnested g hmem g' hmem' hin hne)
    · exact hleaves g hg (hnested g' hmem' g hmem hin (Ne.symm hne))
  have hnodup : ((layout.groupsAround container a).map Prod.fst).Nodup :=
    (List.filter_sublist.map Prod.fst).nodup (Layout.nodup_groups container layout)
  generalize layout.groupsAround container a = gs at hsame hnodup
  match gs with
  | [] => exact Nat.zero_le 1
  | [g] => exact Nat.le_refl 1
  | g :: g' :: gs =>
    have hne := (List.nodup_cons.1 hnodup).1
    rw [hsame g (by simp) g' (by simp)] at hne
    exact absurd List.mem_cons_self hne

theorem walkedOnce_of_nested (t : Tolerances α) {container : Address} {layout : Layout α}
    (hnested : ∀ g ∈ layout.groups container, ∀ g' ∈ layout.groups container,
      g.1 <+: g'.1 → g.1 ≠ g'.1 → walk t layout.value.box g'.1 g'.2 = []) :
    WalkedOnce layout (build t container layout) := by
  have hwhole : ∀ a,
      (((build t container layout).madeFrom a).filter fun n => !n.synthetic).length ≤ 1 := by
    intro a
    by_cases hreach : ∃ s, ReachesBelow container layout a s
    · obtain ⟨s, hs⟩ := hreach
      rcases madeFrom_build t hs.reaches with ⟨-, hnil⟩ | ⟨hown, ⟨hlength, -⟩ | ⟨-, hsynthetic, -⟩⟩
      · rw [hnil]
        exact Nat.zero_le 1
      · exact Nat.le_trans (List.length_filter_le _ _)
          (Nat.le_trans (Nat.le_of_eq hlength)
            (length_groupsAround_le_one t hs.reaches hown hnested))
      · rw [List.filter_eq_nil_iff.2 fun n hn => by rw [hsynthetic n hn]; decide]
        exact Nat.zero_le 1
    · rw [madeFrom_eq_nil t fun l hl => hreach ⟨l, hl⟩]
      exact Nat.zero_le 1
  refine ⟨hwhole, fun a l hl => ?_, ?_⟩
  · change ReachesBelow container layout a l at hl
    rcases madeFrom_build t hl.reaches with ⟨-, hnil⟩ | ⟨hown, ⟨-, hplain⟩ | ⟨-, hsynthetic, htexts⟩⟩
    · rw [hnil]
      exact Or.inl rfl
    · rw [List.filter_eq_nil_iff.2 fun n hn => by rw [hplain n hn]; decide]
      exact Or.inl rfl
    · rw [List.filter_eq_self.2 hsynthetic, htexts]
      match hcount : (layout.groupsAround container a).length with
      | 0 => exact Or.inl rfl
      | 1 => exact Or.inr (List.append_nil _)
      | k + 2 =>
        have hone := length_groupsAround_le_one t hl.reaches hown hnested
        omega
  · have hroot : (build t container layout).atoms =
        (build t container layout).nodes.tail.filter (·.atom) := rfl
    have hatoms : ((build t container layout).atoms.filter fun n => !n.synthetic).Sublist
        ((build t container layout).nodes.tail.filter fun n => !n.synthetic) := by
      rw [hroot]
      exact List.filter_sublist.filter _
    refine (hatoms.map _).nodup (nodup_sources fun a => ?_)
    rw [List.filter_filter, List.filter_congr fun n _ => Bool.and_comm _ _, ← List.filter_filter]
    exact hwhole a

/-- Elements are walked once exactly when no group inside another one leaves a node. -/
theorem walkedOnce_iff (t : Tolerances α) (container : Address) (layout : Layout α) :
    WalkedOnce layout (build t container layout) ↔
      ∀ g ∈ layout.groups container, ∀ g' ∈ layout.groups container,
        g.1 <+: g'.1 → g.1 ≠ g'.1 → walk t layout.value.box g'.1 g'.2 = [] := by
  refine ⟨fun h g hg g' hg' hin hne => ?_, walkedOnce_of_nested t⟩
  by_contra hwalk
  -- an element of the inner group that something is drafted of lies in both groups
  have hdrafts : Tree.preorderAll (walk t layout.value.box g'.1 g'.2) ≠ [] := by
    match hforest : walk t layout.value.box g'.1 g'.2 with
    | [] => exact absurd hforest hwalk
    | .node d ds :: ts => exact List.cons_ne_nil d _
  rw [preorderAll_walk, Ne, List.flatMap_eq_nil_iff, not_forall] at hdrafts
  obtain ⟨p, hp⟩ := hdrafts
  obtain ⟨hmem, hown⟩ := Classical.not_imp.1 hp
  have hplace := (Tree.mem_places g'.1 g'.2 p).1 hmem
  have hbelow : ReachesBelow container layout p.1 p.2 :=
    (Layout.reachesBelow_of_mem_groups hg').trans hplace
  have hmany := one_lt_length_groupsAround hg hg' hne hin hplace.isPrefix
  rcases madeFrom_build t hbelow.reaches with
    ⟨hnil, -⟩ | ⟨-, ⟨hlength, hplain⟩ | ⟨hsegments, hsynthetic, htexts⟩⟩
  · exact hown hnil
  · have hone := h.whole p.1
    rw [List.filter_eq_self.2 fun n hn => by rw [hplain n hn]; rfl, hlength] at hone
    exact absurd hmany (Nat.not_lt.2 hone)
  · have hrun := h.segments p.1 p.2 hbelow
    rw [List.filter_eq_self.2 hsynthetic] at hrun
    have hlength := congrArg List.length htexts
    rw [List.length_flatten, List.map_replicate, List.sum_replicate_nat] at hlength
    have hpos : 0 < ((Segment.ofString (Text.trim (Layout.content p.2))).map (·.text)).length := by
      rw [List.length_map]
      exact List.length_pos_iff.2 hsegments
    have htwice := Nat.mul_le_mul_right
      ((Segment.ofString (Text.trim (Layout.content p.2))).map (·.text)).length hmany
    rcases hrun with hrun | hrun <;> rw [hrun] at hlength
    · rw [List.length_nil] at hlength
      omega
    · omega

/-- A seven in a group that lies in another group. -/
def groupInGroup : Layout Rat :=
  let box : Box Rat := ⟨0, 0, 10, 10⟩
  .node ⟨["katex"], "", box, []⟩ [.node ⟨[formulaClass], "", box, []⟩
    [.node ⟨[groupClass], "", box, []⟩ [.node ⟨[groupClass], "", box, []⟩
      [.node ⟨["mord"], "7", box, []⟩ []]]]]

/-- The seven is walked from both groups. -/
theorem not_forall_walkedOnce :
    ¬ ∀ (t : Tolerances Rat) (container : Address) (layout : Layout Rat),
      WalkedOnce layout (build t container layout) := by
  intro h
  have htwo : (((build .standard [] groupInGroup).madeFrom [0, 0, 0, 0]).filter
      fun n => !n.synthetic).length = 2 := by
    decide +kernel
  have hone := (h .standard [] groupInGroup).whole [0, 0, 0, 0]
  rw [htwo] at hone
  exact absurd hone (by decide)

end SurfaceMap
end FormulaMap

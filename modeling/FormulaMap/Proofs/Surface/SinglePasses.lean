/-
A single pass a second time.

A run of all passes may find something to write when it is repeated, since the kinds that
the first pass restores are read by a later one.  One pass alone finds nothing: in a list of
nodes in any state, with any kinds and marks, a pass leaves nothing for itself to do
(`run_run`).  For the pass over the wholes this is so because a numeral that it leaves a
numeral was turned away when it came, for want of a bar or because it was a part of another
number, and is turned away for the same reason again (`nextJoint?_settled`).

On maps a pass is run over the atoms in an order that was taken once (`runPassOver`), or in
the order that they have at the time (`runPass`); only the widening of bars can change the
latter.
-/
import FormulaMap.Proofs.Surface.MixedNumbers

namespace FormulaMap

variable {α : Type}

namespace SurfaceMap

/-! ## Nodes in an order -/

variable {m : SurfaceMap α}

theorem filterMap_nodeAt? (hm : Placed m.root) {ns : List (Node α)} (hns : ∀ n ∈ ns, n ∈ m.nodes) :
    (ns.map (·.number)).filterMap m.nodeAt? = ns := by
  have hfound : ∀ n ∈ ns, (m.nodeAt? ∘ fun n => n.number) n = some n := fun n hn =>
    find?_number hm.distinct (hns n hn)
  rw [List.filterMap_map, List.filterMap_congr hfound, List.filterMap_some]

theorem mem_nodes_of_mem_filterMap {order : List Nat} {n : Node α}
    (hn : n ∈ order.filterMap m.nodeAt?) : n ∈ m.nodes := by
  obtain ⟨k, -, hk⟩ := List.mem_filterMap.1 hn
  exact List.mem_of_find?_eq_some hk

theorem nodup_filterMap_nodeAt? (m : SurfaceMap α) {order : List Nat} (horder : order.Nodup) :
    ((order.filterMap m.nodeAt?).map (·.number)).Nodup := by
  have hnumber : ∀ k i, i ∈ (m.nodeAt? k).map (·.number) → i = k := by
    intro k i hi
    obtain ⟨n, hn, rfl⟩ := Option.map_eq_some_iff.1 hi
    exact number_of_nodeAt? hn
  rw [List.map_filterMap]
  exact horder.filterMap fun k k' i hk hk' => (hnumber k i hk).symm.trans (hnumber k' i hk')

/-- What has been put back is found where it was put. -/
theorem filterMap_nodeAt?_restore {order : List Nat} (horder : order.Nodup)
    {changed : List (Node α)}
    (hframe : changed.map Node.frame = (order.filterMap m.nodeAt?).map Node.frame) :
    order.filterMap (m.restore changed).nodeAt? = changed := by
  have hnumbers : changed.map (·.number) = (order.filterMap m.nodeAt?).map (·.number) := by
    have h := congrArg (List.map Frame.number) hframe
    rwa [List.map_map, List.map_map] at h
  have hkept : ∀ n : Node α, (replaceBy changed n).number = n.number := by
    intro n
    rw [replaceBy]
    cases hfind : changed.find? (·.number == n.number) with
    | none => rfl
    | some c =>
      have htest := List.find?_some hfind
      exact beq_iff_eq.1 htest
  have hlookup : (m.restore changed).nodeAt? = fun k => (m.nodeAt? k).map (replaceBy changed) :=
    funext fun k => nodeAt?_mapNodes hkept m k
  rw [hlookup, ← List.map_filterMap]
  exact map_replaceBy (nodup_filterMap_nodeAt? m horder) hnumbers

theorem placed_restore (hm : Placed m.root) {ns changed : List (Node α)}
    (hns : ∀ n ∈ ns, n ∈ m.nodes) (hframe : changed.map Node.frame = ns.map Node.frame) :
    Placed (m.restore changed).root := by
  refine (restore_changes hm hns hframe).placed (fun a b hab => ?_) hm
  exact ⟨congrArg Frame.number hab.1, congrArg Frame.above hab.1⟩

end SurfaceMap

variable [Coordinate α]

namespace Enhance

/-! ## Bars -/

theorem widenBar_widenBar (margin height height' : α) (n : Node α) :
    widenBar margin height' (widenBar margin height n) = widenBar margin height n := by
  by_cases h : (decide (n.kind = .fracBar) && !n.marks.widened) = true
  · -- The mark that is set keeps the bar from being widened again.
    have hwidened : (widenBar margin height n).marks.widened = true := by
      rw [widenBar, if_pos h]
    generalize widenBar margin height n = b at hwidened ⊢
    rw [widenBar, if_neg]
    simp [hwidened]
  · rw [show widenBar margin height n = n from if_neg h]
    exact if_neg h

/-! ## Wholes -/

variable {gap : α} {ns : List (Node α)}

/-- What the pass over the wholes leaves a numeral has not been joined. -/
theorem jointOf?_of_isNumeric {js : List (Joint α)} {n : Node α}
    (h : (settled js n).kind.isNumeric = true) :
    jointOf? js n = none ∧ n.kind.isNumeric = true := by
  have hkind : (settled js n).kind = if (jointOf? js n).isSome then .mixedNumber else n.kind := rfl
  rw [hkind] at h
  cases hj : jointOf? js n with
  | some j =>
    rw [hj] at h
    exact absurd h Bool.false_ne_true
  | none =>
    rw [hj] at h
    exact ⟨rfl, h⟩

/-- The bars are the same, and stand where they stood. -/
theorem exists_bar_of_settled {js : List (Joint α)} {n b : Node α}
    (h : ((ns.map (settled js)).filter (·.kind = .fracBar)).find? (follows gap (settled js n)) =
      some b) :
    ∃ c, (ns.filter (·.kind = .fracBar)).find? (follows gap n) = some c := by
  obtain ⟨hmem, hkind⟩ := List.mem_filter.1 (List.mem_of_find?_eq_some h)
  obtain ⟨c, hc, rfl⟩ := List.mem_map.1 hmem
  have hbar : c.kind = .fracBar := by
    have hsettled : (settled js c).kind =
      if (jointOf? js c).isSome then .mixedNumber else c.kind := rfl
    rw [hsettled, decide_eq_true_eq] at hkind
    split at hkind
    · exact absurd hkind Kind.noConfusion
    · exact hkind
  have hfollows := List.find?_some h
  rw [← Option.isSome_iff_exists, List.find?_isSome]
  exact ⟨c, List.mem_filter.2 ⟨hc, decide_eq_true hbar⟩, hfollows⟩

/-- After the pass there is no number left to join. -/
theorem nextJoint?_settled (hdistinct : (ns.map (·.number)).Nodup) (hids : ∀ n ∈ ns, n.id ≠ "")
    {n : Node α} (hn : n ∈ ns) :
    nextJoint? gap ((ns.map (settled (joints gap ns))).filter (·.kind = .fracBar)) []
      (settled (joints gap ns) n) = none := by
  refine Option.eq_none_iff_forall_not_mem.2 fun j hj => ?_
  obtain ⟨hkind, hpart, -, -, hfound⟩ := nextJoint?_eq_some.1 hj
  obtain ⟨hnew, hnumeric⟩ := jointOf?_of_isNumeric hkind
  obtain ⟨b, hbar⟩ := exists_bar_of_settled hfound
  have hwholes : ∀ i ∈ joints gap ns, i.whole.id ≠ "" := fun i hi =>
    hids i.whole ((joints_spec gap hdistinct).whole i hi).1
  rw [isMixedPart_settled hnew hwholes, Bool.or_eq_false_iff] at hpart
  -- It was turned away in the first run, though nothing speaks against it.
  obtain ⟨js, hjs, hturn⟩ := exists_turn gap hdistinct hn
  have hfree : js.any (claims · n) = false := by
    rw [List.any_eq_false] at hpart ⊢
    exact fun i hi => hpart.2 i (hjs hi)
  have hnext : nextJoint? gap (ns.filter (·.kind = .fracBar)) js n = some ⟨n, b⟩ :=
    nextJoint?_eq_some.2 ⟨hnumeric, hpart.1, hfree, rfl, hbar⟩
  rw [hnew, hnext] at hturn
  exact absurd hturn.symm (Option.some_ne_none _)

theorem joints_settled (hdistinct : (ns.map (·.number)).Nodup) (hids : ∀ n ∈ ns, n.id ≠ "") :
    joints gap (ns.map (settled (joints gap ns))) = [] := by
  have hnone : ∀ n ∈ ns.map (settled (joints gap ns)),
      nextJoint? gap ((ns.map (settled (joints gap ns))).filter (·.kind = .fracBar)) [] n =
        none := by
    intro m hm
    obtain ⟨n, hn, rfl⟩ := List.mem_map.1 hm
    exact nextJoint?_settled hdistinct hids hn
  rw [joints]
  generalize (ns.map (settled (joints gap ns))).filter (·.kind = .fracBar) = bars at hnone ⊢
  generalize ns.map (settled (joints gap ns)) = rest at hnone ⊢
  induction rest with
  | nil => rfl
  | cons n rest ih =>
    rw [jointsAfter, hnone n List.mem_cons_self]
    exact ih fun m hm => hnone m (List.mem_cons_of_mem n hm)

theorem joinMixed_joinMixed (gap : α) (hdistinct : (ns.map (·.number)).Nodup)
    (hids : ∀ n ∈ ns, n.id ≠ "") : joinMixed gap (joinMixed gap ns) = joinMixed gap ns := by
  have hdistinct' : ((ns.map (settled (joints gap ns))).map (·.number)).Nodup := by
    rw [List.map_map]
    exact hdistinct
  have hids' : ∀ m ∈ ns.map (settled (joints gap ns)), m.id ≠ "" := by
    intro m hm
    obtain ⟨n, hn, rfl⟩ := List.mem_map.1 hm
    exact hids n hn
  rw [joinMixed_eq gap hdistinct hids, joinMixed_eq gap hdistinct' hids',
    joints_settled hdistinct hids]
  exact (List.map_congr_left fun n _ => settled_of_free (n := n) rfl rfl).trans (List.map_id _)

/-! ## All passes -/

open SurfaceMap (Pass)

/-- A pass changes nothing when it is run again, whatever the height of the map is then. -/
theorem run_run (t : Tolerances α) (height height' : α) (p : Pass)
    (hdistinct : (ns.map (·.number)).Nodup) (hids : ∀ n ∈ ns, n.id ≠ "") :
    p.run t height' (p.run t height ns) = p.run t height ns := by
  cases p with
  | widen =>
    show (ns.map (widenBar _ height)).map (widenBar _ height') = ns.map (widenBar _ height)
    rw [List.map_map]
    exact List.map_congr_left fun n _ => widenBar_widenBar _ height height' n
  | reclassify =>
    show (ns.map reclassifyNode).map reclassifyNode = ns.map reclassifyNode
    rw [List.map_map, funext (f := reclassifyNode ∘ reclassifyNode) reclassifyNode_reclassifyNode]
  | minus =>
    show resolveMinus _ (resolveMinus _ ns) = resolveMinus _ ns
    exact resolveAfter_resolveAfter t.minusOverlap [] ns
  | mixed =>
    show joinMixed _ (joinMixed _ ns) = joinMixed _ ns
    exact joinMixed_joinMixed t.mixedGap hdistinct hids
  | slots =>
    show numberOperators (numberOperators ns) = numberOperators ns
    exact numberAfter_numberAfter [] 0 ns

/-- The passes after the widening of bars write kinds, slots and marks, and nothing else. -/
theorem map_asDrawn_run (t : Tolerances α) (height : α) {p : Pass} (hp : p ≠ .widen)
    (hdistinct : (ns.map (·.number)).Nodup) :
    (p.run t height ns).map Node.asDrawn = ns.map Node.asDrawn := by
  have hunrefined : ∀ ns' : List (Node α), ns'.map Node.unrefined = ns.map Node.unrefined →
      ns'.map Node.asDrawn = ns.map Node.asDrawn := by
    intro ns' h
    have hmapped := congrArg (List.map Node.asDrawn) h
    rwa [List.map_map, List.map_map] at hmapped
  cases p with
  | widen => exact absurd rfl hp
  | reclassify => exact hunrefined _ (map_unrefined_reclassify ns)
  | minus => exact hunrefined _ (map_unrefined_resolveAfter t.minusOverlap [] ns)
  | mixed =>
    have hjoined := (rewrites_joinMixed t.mixedGap hdistinct).map_asDrawn
    exact hjoined
  | slots =>
    have hnumbered := (rewrites_numberOperators hdistinct).map_asDrawn
    exact hnumbered

end Enhance

namespace SurfaceMap

open Enhance

/-- Runs one pass over nodes that are given by their numbers, in this order. -/
def runPassOver (t : Tolerances α) (p : Pass) (order : List Nat) (m : SurfaceMap α) :
    SurfaceMap α :=
  m.restore (p.run t m.height (order.filterMap m.nodeAt?))

variable {m : SurfaceMap α}

/-- A pass over the atoms in their present order. -/
theorem runPass_eq (t : Tolerances α) (p : Pass) (hm : Placed m.root) :
    m.runPass t p = m.runPassOver t p (m.atomsInOrder.map (·.number)) := by
  rw [runPassOver, filterMap_nodeAt? hm fun n => mem_nodes_of_mem_atomsInOrder]
  rfl

theorem runPassOver_runPassOver (t : Tolerances α) (p : Pass) (hm : Placed m.root)
    (hids : ∀ n ∈ m.nodes, n.id ≠ "") {order : List Nat} (horder : order.Nodup) :
    (m.runPassOver t p order).runPassOver t p order = m.runPassOver t p order := by
  have hns : ∀ n ∈ order.filterMap m.nodeAt?, n ∈ m.nodes := fun n => mem_nodes_of_mem_filterMap
  have hframe := map_frame_run t m.height p (order.filterMap m.nodeAt?)
  have hplaced : Placed (m.runPassOver t p order).root := placed_restore hm hns hframe
  have hfound : order.filterMap (m.runPassOver t p order).nodeAt? =
      p.run t m.height (order.filterMap m.nodeAt?) :=
    filterMap_nodeAt?_restore horder hframe
  have hagain : p.run t (m.runPassOver t p order).height
      (order.filterMap (m.runPassOver t p order).nodeAt?) =
        order.filterMap (m.runPassOver t p order).nodeAt? := by
    rw [hfound]
    exact run_run t _ _ p (nodup_filterMap_nodeAt? m horder) fun n hn => hids n (hns n hn)
  rw [runPassOver, hagain]
  exact restore_of_subset hplaced fun n => mem_nodes_of_mem_filterMap

/-- Widened bars stay as they are, in whatever order they come then. -/
theorem runPass_widen_runPass_widen (t : Tolerances α) (hm : Placed m.root) :
    (m.runPass t .widen).runPass t .widen = m.runPass t .widen := by
  have hwidened : ∀ height, (Pass.widen).run t height (m.runPass t .widen).atomsInOrder =
      (m.runPass t .widen).atomsInOrder := by
    intro height
    refine (List.map_congr_left fun n hn => ?_).trans (List.map_id _)
    obtain ⟨a, -, -, rfl⟩ := exists_of_mem_widen hm hn
    exact widenBar_widenBar _ _ height a
  rw [runPass, hwidened]
  exact restore_of_subset (placed_widen t hm) fun n => mem_nodes_of_mem_atomsInOrder

theorem runPass_runPass (t : Tolerances α) (p : Pass) (hm : Placed m.root)
    (hids : ∀ n ∈ m.nodes, n.id ≠ "") :
    (m.runPass t p).runPass t p = m.runPass t p := by
  by_cases hp : p = .widen
  · rw [hp]
    exact runPass_widen_runPass_widen t hm
  · -- No other pass moves an atom, so the order is still the one that was taken first.
    have hdrawn := map_asDrawn_run t m.height hp (nodup_atomsInOrder hm)
    obtain ⟨g, hg, hrestore, hmap⟩ := exists_restore hm hdrawn
    have horder : (m.runPass t p).atomsInOrder = m.atomsInOrder.map g := by
      rw [runPass, hrestore, atomsInOrder_mapNodes hg]
    have hnumbers : (m.runPass t p).atomsInOrder.map (·.number) =
        m.atomsInOrder.map (·.number) := by
      rw [horder, List.map_map]
      exact List.map_congr_left fun n _ => (congrArg Node.number (hg n) :)
    have hplaced : Placed (m.runPass t p).root :=
      placed_restore hm (fun n => mem_nodes_of_mem_atomsInOrder) (map_frame_run t m.height p _)
    have hdistinct : (m.atomsInOrder.map (·.number)).Nodup := nodup_atomsInOrder hm
    rw [runPass_eq t p hplaced, hnumbers, runPass_eq t p hm]
    exact runPassOver_runPassOver t p hm hids hdistinct

/-- Every single pass is idempotent, on maps in any state: over the atoms in an order that is
taken once, and over the atoms in the order that they have each time. -/
theorem single_pass_idempotent (t : Tolerances α) (p : Pass) (hm : Placed m.root)
    (hids : ∀ n ∈ m.nodes, n.id ≠ "") :
    (∀ order : List Nat, order.Nodup →
      (m.runPassOver t p order).runPassOver t p order = m.runPassOver t p order) ∧
    m.runPass t p = m.runPassOver t p (m.atomsInOrder.map (·.number)) ∧
    (m.runPass t p).runPass t p = m.runPass t p :=
  ⟨fun _ horder => runPassOver_runPassOver t p hm hids horder, runPass_eq t p hm,
    runPass_runPass t p hm hids⟩

/-- A decimal that is set in two pieces is joined with the bar, and so are the pieces, and then
there is nothing left to join. -/
theorem single_pass_splitDecimal :
    let m := build .standard [] splitDecimal
    ((m.runPass .standard .mixed).nodes.filter (·.kind = .mixedNumber)).map (·.text) =
        ["1.5", "1.", "5"] ∧
      (m.runPass .standard .mixed).runPass .standard .mixed = m.runPass .standard .mixed := by
  intro m
  have hids : ∀ n ∈ m.nodes, n.id ≠ "" := by decide +kernel
  have hjoined : ((m.runPass .standard .mixed).nodes.filter (·.kind = .mixedNumber)).map (·.text) =
      ["1.5", "1.", "5"] := by
    decide +kernel
  exact ⟨hjoined,
    (single_pass_idempotent .standard .mixed (placed_build .standard [] splitDecimal) hids).2.2⟩

end SurfaceMap
end FormulaMap

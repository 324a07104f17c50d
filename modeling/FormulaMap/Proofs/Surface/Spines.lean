/-
Maps whose leaves hang side by side.

In the map of a row the leaves are the children of the root, or of one node that stands
for the whole row.  `spine` is such a tree.  Refining a map without fraction bars comes
down to telling kinds apart and resolving minus signs (`enhance_of_no_bar`), and for a
spine over a line this can be followed leaf by leaf (`SpineOver.exists_enhance`).
-/
import FormulaMap.Proofs.Surface.Lines
import FormulaMap.Proofs.Surface.Refining

namespace FormulaMap

variable {α : Type}

/-- The leaves below the root, or below one node between them and the root. -/
def spine (root : Node α) (wrapper : Option (Node α)) (ns : List (Node α)) : Tree (Node α) :=
  match wrapper with
  | none => .node root (ns.map fun n => .node n [])
  | some w => .node root [.node w (ns.map fun n => .node n [])]

section
variable (r : Node α) (w : Option (Node α)) {ns : List (Node α)}

theorem preorder_spine (ns : List (Node α)) : (spine r w ns).preorder = r :: (w.toList ++ ns) := by
  cases w with
  | none => rw [spine, Tree.preorder, Tree.preorderAll_leafs]; rfl
  | some b =>
    rw [spine, Tree.preorder, Tree.preorderAll, Tree.preorder, Tree.preorderAll_leafs,
      Tree.preorderAll, List.append_nil]
    rfl

theorem leaves_spine (hne : ns ≠ []) : (spine r w ns).leaves = ns := by
  have hmap : (ns.map fun n => Tree.node n []) ≠ [] := by simpa using hne
  cases w with
  | none => rw [spine, Tree.leaves_of_ne_nil r hmap, Tree.leavesAll_leafs]
  | some b =>
    rw [spine, Tree.leaves, Tree.leavesAll, Tree.leavesAll, Tree.leaves_of_ne_nil b hmap,
      Tree.leavesAll_leafs, List.append_nil]

theorem map_spine (f : Node α → Node α) (ns : List (Node α)) :
    (spine r w ns).map f = spine (f r) (w.map f) (ns.map f) := by
  cases w with
  | none => rw [spine, Tree.map, Tree.mapAll_leafs]; rfl
  | some b =>
    rw [spine, Tree.map, Tree.mapAll, Tree.map, Tree.mapAll_leafs, Tree.mapAll]
    rfl

end

namespace ReadingOrder

/-- A node with one child is read as the child is. -/
theorem leaves_node_singleton [Coordinate α] (ratio : α) (n : Node α) (t : Tree (Node α)) :
    leaves ratio (.node n [t]) = leaves ratio t := by
  have hitem : ∀ item : Box α × List (Node α), arrange ratio [item] = [item] := fun _ => rfl
  rw [leaves, blocks, blocks, hitem, List.flatMap_singleton]

theorem leaves_spine (r : Node Rat) (w : Option (Node Rat)) {ns : List (Node Rat)} (h : Line ns)
    {ratio : Rat} (hratio : 0 ≤ ratio) (hne : ns ≠ []) : leaves ratio (spine r w ns) = ns := by
  cases w with
  | none => exact h.leaves_node hratio hne r
  | some b =>
    rw [spine, leaves_node_singleton]
    exact h.leaves_node hratio hne b

end ReadingOrder

/-! ## Refining without bars -/

/-- The node without its number as an operator. -/
def Node.unslotted (n : Node α) : Node α := { n with slot := none }

namespace Enhance

theorem map_unslotted_numberAfter (numbered : List (Node α)) (next : Nat) (ns : List (Node α)) :
    (numberAfter numbered next ns).map Node.unslotted = ns.map Node.unslotted := by
  induction ns generalizing numbered next with
  | nil => rfl
  | cons n ns ih =>
    rw [numberAfter]
    split
    · split <;> exact congrArg (List.cons _) (ih _ _)
    · exact congrArg (List.cons _) (ih _ _)

theorem reclassifyNode_eq_kind (n : Node α) : reclassifyNode n =
    { n with
      kind :=
        if Category.isDecimal n.glyphs then .decimal
        else if Category.hasGreek n.glyphs then .var else n.kind } := by
  unfold reclassifyNode
  dsimp only
  split
  · rfl
  · split <;> rfl

theorem reclassifyNode_eq (n : Node α) : ∃ k, reclassifyNode n = { n with kind := k } :=
  ⟨_, reclassifyNode_eq_kind n⟩

/-- Only decimals and variables are told apart again. -/
theorem kind_of_reclassifyNode {n : Node α} {k : Kind} (hdecimal : k ≠ .decimal) (hvar : k ≠ .var)
    (h : (reclassifyNode n).kind = k) : n.kind = k := by
  rw [reclassifyNode_eq_kind] at h
  dsimp only at h
  split at h
  · exact absurd h.symm hdecimal
  · split at h
    · exact absurd h.symm hvar
    · exact h

variable [Coordinate α]

theorem widenBars_of_no_bar (margin height : α) {ns : List (Node α)}
    (h : ∀ n ∈ ns, n.kind ≠ .fracBar) : widenBars margin height ns = ns := by
  refine (List.map_congr_left fun n hn => ?_).trans (List.map_id ns)
  rw [widenBar, decide_eq_false (h n hn), Bool.false_and, if_neg Bool.false_ne_true]
  rfl

/-- Only minus signs are resolved. -/
theorem kind_of_resolveNode {ratio : α} {seen : List (Node α)} {n : Node α} {k : Kind}
    (hunary : k ≠ .minusUnary) (hbinary : k ≠ .minusBinary)
    (h : (resolveNode ratio seen n).kind = k) : n.kind = k := by
  unfold resolveNode at h
  split at h
  · have hminus : minusKind ratio seen n = k := h
    unfold minusKind at hminus
    split at hminus
    · exact absurd hminus.symm hunary
    · split at hminus
      · exact absurd hminus.symm hunary
      · exact absurd hminus.symm hbinary
  · exact h

theorem kind_resolveAfter_ne (ratio : α) {ns : List (Node α)} (h : ∀ n ∈ ns, n.kind ≠ .fracBar)
    (seen : List (Node α)) : ∀ n ∈ resolveAfter ratio seen ns, n.kind ≠ .fracBar := by
  induction ns generalizing seen with
  | nil => exact fun n hn => absurd hn List.not_mem_nil
  | cons a ns ih =>
    intro n hn
    rw [resolveAfter] at hn
    rcases List.mem_cons.1 hn with rfl | hn
    · exact fun hbar => h a List.mem_cons_self
        (kind_of_resolveNode Kind.noConfusion Kind.noConfusion hbar)
    · exact ih (fun b hb => h b (List.mem_cons_of_mem a hb)) _ n hn

theorem joinMixed_of_no_bar (gap : α) {ns : List (Node α)} (h : ∀ n ∈ ns, n.kind ≠ .fracBar) :
    joinMixed gap ns = ns := by
  have hbars : ns.filter (·.kind = .fracBar) = [] :=
    List.filter_eq_nil_iff.2 fun n hn => by simpa using h n hn
  have hstep : ∀ (state : List (Node α)) (k : Nat), joinWhole gap [] state k = state := by
    intro state k
    unfold joinWhole
    split
    · rfl
    · split <;> rfl
  have hfold : ∀ (ks : List Nat) (state : List (Node α)),
      ks.foldl (joinWhole gap []) state = state := by
    intro ks
    induction ks with
    | nil => exact fun _ => rfl
    | cons k ks ih =>
      intro state
      rw [List.foldl_cons, hstep, ih]
  rw [joinMixed, hbars, hfold]

end Enhance

namespace SurfaceMap

open Enhance

/-- What puts changed nodes back. -/
def replaceBy (changed : List (Node α)) (n : Node α) : Node α :=
  (changed.find? (·.number == n.number)).getD n

theorem replaceBy_eq {changed : List (Node α)} (hdistinct : (changed.map (·.number)).Nodup)
    {c n : Node α} (hc : c ∈ changed) (hnumber : c.number = n.number) :
    replaceBy changed n = c := by
  rw [replaceBy, ← hnumber, find?_number hdistinct hc]
  rfl

theorem map_replaceBy {changed ns : List (Node α)} (hdistinct : (ns.map (·.number)).Nodup)
    (hnumbers : changed.map (·.number) = ns.map (·.number)) :
    ns.map (replaceBy changed) = changed := by
  have hlength : changed.length = ns.length := by simpa using congrArg List.length hnumbers
  refine List.ext_getElem (by rw [List.length_map, hlength]) fun i hi hi' => ?_
  rw [List.getElem_map]
  refine replaceBy_eq (hnumbers ▸ hdistinct) (List.getElem_mem hi') ?_
  have hat := congrArg (fun ks => ks[i]?) hnumbers
  simpa [hi', hlength ▸ hi'] using hat

theorem restore_of_subset {m : SurfaceMap α} (hm : Placed m.root) {changed : List (Node α)}
    (h : ∀ c ∈ changed, c ∈ m.nodes) : m.restore changed = m := by
  have hsame : ∀ n ∈ m.root.preorder, replaceBy changed n = id n := by
    intro n hn
    rw [replaceBy]
    cases hfind : changed.find? (·.number == n.number) with
    | none => rfl
    | some c =>
      have htest := List.find?_some hfind
      exact hm.eq_of_number (h c (List.mem_of_find?_eq_some hfind)) hn (beq_iff_eq.1 htest)
  have hroot := (Tree.map_congr m.root hsame).trans (Tree.map_id m.root)
  show ({ m with root := m.root.map (replaceBy changed) } : SurfaceMap α) = m
  rw [hroot]

variable [Coordinate α]

/-- Without bars, refining tells kinds apart, resolves minus signs and numbers operators. -/
theorem enhance_of_no_bar {m : SurfaceMap α} (hm : Placed m.root)
    (h : ∀ n ∈ m.nodes, n.kind ≠ .fracBar) (t : Tolerances α) :
    m.enhance t = m.restore
      (numberOperators (resolveMinus t.minusOverlap (reclassify m.atomsInOrder))) := by
  have hatoms : ∀ n ∈ m.atomsInOrder, n ∈ m.nodes := fun n => mem_nodes_of_mem_atomsInOrder
  have hbars : ∀ n ∈ m.atomsInOrder, n.kind ≠ .fracBar := fun n hn => h n (hatoms n hn)
  have hwiden : m.runPass t .widen = m := by
    show m.restore (widenBars _ _ m.atomsInOrder) = m
    rw [widenBars_of_no_bar _ _ hbars]
    exact restore_of_subset hm hatoms
  have hreclassified : ∀ n ∈ reclassify m.atomsInOrder, n.kind ≠ .fracBar := by
    intro n hn
    obtain ⟨a, ha, rfl⟩ := List.mem_map.1 hn
    exact fun hbar => hbars a ha (kind_of_reclassifyNode Kind.noConfusion Kind.noConfusion hbar)
  have hmixed := joinMixed_of_no_bar t.mixedGap
    (kind_resolveAfter_ne t.minusOverlap hreclassified [])
  unfold enhance
  dsimp only
  rw [hwiden]
  show m.restore (numberOperators (joinMixed _ (resolveMinus _ (reclassify m.atomsInOrder)))) = _
  rw [resolveMinus, hmixed]

end SurfaceMap

/-! ## What refining leaves -/

/-- The node without what refining a spine writes. -/
def Node.unrefined (n : Node α) : Node α := { n with kind := .other, slot := none }

namespace Enhance

theorem map_unrefined_reclassify (ns : List (Node α)) :
    (reclassify ns).map Node.unrefined = ns.map Node.unrefined := by
  rw [reclassify, List.map_map]
  refine List.map_congr_left fun n _ => ?_
  obtain ⟨k, hk⟩ := reclassifyNode_eq n
  exact (congrArg Node.unrefined hk).trans rfl

theorem map_unrefined_resolveAfter [Coordinate α] (ratio : α) (seen ns : List (Node α)) :
    (resolveAfter ratio seen ns).map Node.unrefined = ns.map Node.unrefined := by
  induction ns generalizing seen with
  | nil => rfl
  | cons n ns ih =>
    obtain ⟨k, hk⟩ := resolveNode_eq ratio seen n
    rw [resolveAfter, List.map_cons, List.map_cons, ih, hk]
    rfl

end Enhance

/-- Whether nodes are a line is seen without their kinds and numbers as operators. -/
theorem Line.map_unrefined_iff {ns : List (Node Rat)} : Line (ns.map Node.unrefined) ↔ Line ns := by
  constructor
  · intro h
    refine ⟨List.forall_mem_map.1 h.wide, List.forall_mem_map.1 h.tall,
      fun a ha => List.forall_mem_map.1 (List.forall_mem_map.1 h.level a ha),
      List.pairwise_map.1 h.apart,
      fun a ha => List.forall_mem_map.1 (List.forall_mem_map.1 h.unrelated a ha)⟩
  · intro h
    refine ⟨List.forall_mem_map.2 h.wide, List.forall_mem_map.2 h.tall,
      List.forall_mem_map.2 fun a ha => List.forall_mem_map.2 (h.level a ha),
      List.pairwise_map.2 h.apart,
      List.forall_mem_map.2 fun a ha => List.forall_mem_map.2 (h.unrelated a ha)⟩

/-! ## Refining a spine -/

namespace SurfaceMap

open Enhance

/-- What is asked of the nodes of a spine: the leaves are a line of atoms, and where a node
stands between them and the root there is no minus. -/
structure SpineOver (r : Node Rat) (w : Option (Node Rat)) (ns : List (Node Rat))
    (m : SurfaceMap Rat) : Prop where
  placed : Placed m.root
  root : m.root = spine r w ns
  line : Line ns
  atoms : ∀ n ∈ ns, n.atom = true
  rootAtom : r.atom = false
  noBar : ∀ n ∈ r :: (w.toList ++ ns), n.kind ≠ .fracBar
  noMinus : ∀ b ∈ w, ∀ n ∈ b :: ns, isMinusGlyph (String.ofList n.glyphs) = false

variable {r : Node Rat} {w : Option (Node Rat)} {ns : List (Node Rat)} {m : SurfaceMap Rat}

theorem SpineOver.nodes (h : SpineOver r w ns m) : m.nodes = r :: (w.toList ++ ns) := by
  rw [SurfaceMap.nodes, h.root, preorder_spine]

theorem glyphs_reclassifyNode (n : Node Rat) : (reclassifyNode n).glyphs = n.glyphs := by
  obtain ⟨k, hk⟩ := reclassifyNode_eq n
  rw [hk]
  rfl

/-- Without a minus, resolving minus signs does nothing. -/
theorem resolveMinus_reclassify {ns : List (Node Rat)}
    (h : ∀ n ∈ ns, isMinusGlyph (String.ofList n.glyphs) = false) (ratio : Rat) :
    resolveMinus ratio (reclassify ns) = reclassify ns := by
  refine resolveAfter_of_no_minus ratio (fun n hn => ?_) []
  obtain ⟨a, ha, rfl⟩ := List.mem_map.1 hn
  rw [glyphs_reclassifyNode]
  exact h a ha

theorem numbers_refined (t : Tolerances Rat) (os : List (Node Rat)) :
    (numberOperators (resolveMinus t.minusOverlap (reclassify os))).map (·.number) =
      os.map (·.number) := by
  have hframes :
      (numberOperators (resolveMinus t.minusOverlap (reclassify os))).map Node.frame =
        os.map Node.frame :=
    ((map_frame_run t 0 .slots _).trans (map_frame_run t 0 .minus _)).trans
      (map_frame_run t 0 .reclassify os)
  have hnumbers := congrArg (List.map Frame.number) hframes
  rwa [List.map_map, List.map_map] at hnumbers

theorem SpineOver.atomsInOrder_none (h : SpineOver r none ns m) : m.atomsInOrder = ns := by
  have hatoms : m.atoms = ns := by
    rw [SurfaceMap.atoms, h.nodes, List.filter_cons_of_neg (by simp [h.rootAtom])]
    exact List.filter_eq_self.2 h.atoms
  rw [SurfaceMap.atomsInOrder, hatoms, h.line.spatialOrder_eq]

theorem SpineOver.mem_atomsInOrder (h : SpineOver r w ns m) {n : Node Rat} (hn : n ∈ ns) :
    n ∈ m.atomsInOrder := by
  refine (sortBy_perm _ m.atoms).mem_iff.2 (List.mem_filter.2 ⟨?_, h.atoms n hn⟩)
  rw [h.nodes]
  exact List.mem_cons_of_mem r (List.mem_append_right _ hn)

/-- Where a node stands between the leaves and the root, no atom is a minus. -/
theorem SpineOver.not_minus (h : SpineOver r w ns m) {b : Node Rat} (hb : b ∈ w) {n : Node Rat}
    (hn : n ∈ m.atomsInOrder) : isMinusGlyph (String.ofList n.glyphs) = false := by
  obtain ⟨hmem, hatom⟩ := List.mem_filter.1 ((sortBy_perm _ m.atoms).mem_iff.1 hn)
  rw [h.nodes] at hmem
  obtain rfl := Option.mem_def.1 hb
  rcases List.mem_cons.1 hmem with rfl | hmem
  · rw [h.rootAtom] at hatom
    exact absurd hatom Bool.false_ne_true
  · exact h.noMinus b rfl n hmem

/-- The leaves of a refined spine, up to the numbers of operators. -/
theorem SpineOver.exists_enhance (h : SpineOver r w ns m) (t : Tolerances Rat) :
    ∃ r' w' ns', (m.enhance t).root = spine r' w' ns' ∧
      ns'.map Node.unslotted =
        (resolveMinus t.minusOverlap (reclassify ns)).map Node.unslotted := by
  have hbars : ∀ n ∈ m.nodes, n.kind ≠ .fracBar := by
    rw [h.nodes]
    exact h.noBar
  rw [enhance_of_no_bar h.placed hbars t]
  have hreplaced : ∀ changed, m.restore changed = m.mapNodes (replaceBy changed) := fun _ => rfl
  rw [hreplaced, mapNodes, h.root, map_spine]
  refine ⟨_, _, _, rfl, ?_⟩
  have hdone := map_replaceBy (nodup_atomsInOrder h.placed) (numbers_refined t m.atomsInOrder)
  have hunslotted := congrArg (List.map Node.unslotted) hdone
  rw [numberOperators, map_unslotted_numberAfter] at hunslotted
  rw [← numberOperators] at hunslotted
  cases w with
  | none =>
    rw [h.atomsInOrder_none] at hunslotted ⊢
    exact hunslotted
  | some b =>
    have hminus := fun n hn => h.not_minus (n := n) rfl hn
    rw [resolveMinus_reclassify hminus] at hunslotted ⊢
    rw [resolveMinus_reclassify fun n hn => h.noMinus b rfl n (List.mem_cons_of_mem b hn)]
    rw [reclassify, List.map_map, List.map_map, List.map_inj_left] at hunslotted
    rw [reclassify, reclassify, List.map_map, List.map_map]
    exact List.map_congr_left fun n hn => hunslotted n (h.mem_atomsInOrder hn)

/-- A refined spine is still a spine over a line, and its leaves are read in order. -/
theorem SpineOver.leaves_enhance (h : SpineOver r w ns m) (hne : ns ≠ []) {t : Tolerances Rat}
    (hratio : 0 ≤ t.columnOverlap) :
    (m.enhance t).leaves t = (m.enhance t).root.leaves ∧
      (m.enhance t).root.leaves.map Node.unslotted =
        (resolveMinus t.minusOverlap (reclassify ns)).map Node.unslotted ∧
      (m.enhance t).root.leaves.map Node.unrefined = ns.map Node.unrefined := by
  obtain ⟨r', w', ns', hroot, hunslotted⟩ := h.exists_enhance t
  have hunrefined : ns'.map Node.unrefined = ns.map Node.unrefined := by
    have hmapped := congrArg (List.map Node.unrefined) hunslotted
    rw [List.map_map, List.map_map] at hmapped
    exact hmapped.trans
      ((map_unrefined_resolveAfter _ [] _).trans (map_unrefined_reclassify ns))
  have hline : Line ns' := by
    rw [← Line.map_unrefined_iff, hunrefined, Line.map_unrefined_iff]
    exact h.line
  have hne' : ns' ≠ [] := by
    rintro rfl
    exact hne (List.map_eq_nil_iff.1 hunrefined.symm)
  rw [SurfaceMap.leaves, hroot, ReadingOrder.leaves_spine r' w' hline hratio hne',
    FormulaMap.leaves_spine r' w' hne']
  exact ⟨rfl, hunslotted, hunrefined⟩

end SurfaceMap
end FormulaMap

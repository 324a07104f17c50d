/-
What refining a map changes, and what it leaves alone.

The passes give the atoms new kinds, boxes, marks and slots.  They never touch what a
node is known by (`Frame`): its number, the numbers above it, its identifier, its
text, its path and its value.  Afterwards a node that is a sign shows a minus glyph,
and a part of a mixed number is a numeral or a bar (`Coherent`).  Joining relies on
both, since it decides by kind which leaves are paired and by mark which parts follow.

The pass that joins whole numbers with bars is the only one that needs an invariant
of its own (`Joining`): the nodes that were bars when it began are bars throughout,
since only numerals become whole parts.
-/
import FormulaMap.Proofs.Surface.Placement
import FormulaMap.Surface.Enhance

namespace FormulaMap

/-- What a node is known by. -/
structure Frame where
  number : Nat
  above : List Nat
  id : String
  text : String
  path : Option String
  value : Option String

variable {α : Type}

namespace Node

def frame (n : Node α) : Frame := ⟨n.number, n.above, n.id, n.text, n.path, n.value⟩

/-- A sign shows a minus glyph. -/
def SignShown (n : Node α) : Prop :=
  n.kind = .minusUnary → isMinusGlyph (String.ofList n.glyphs) = true

theorem signShown_of_ne {n : Node α} (h : n.kind ≠ .minusUnary) : n.SignShown :=
  fun hk => absurd hk h

/-- No mark has been set, and a sign shows a minus glyph. -/
structure Unmarked (n : Node α) : Prop where
  sign : n.SignShown
  part : n.marks.partOf = none

/-- A sign shows a minus glyph, and a part of a mixed number is a numeral or a bar. -/
structure Coherent (n : Node α) : Prop where
  sign : n.SignShown
  part : n.isMixedPart = true → n.kind.isNumeric = true ∨ n.kind = .fracBar

theorem not_isMixedPart_of_partOf {n : Node α} (h : n.marks.partOf = none) :
    n.isMixedPart = false := by
  rw [isMixedPart, mixedOwner?, h]
  rfl

theorem Unmarked.coherent {n : Node α} (h : n.Unmarked) : n.Coherent where
  sign := h.sign
  part := by
    intro hpart
    rw [not_isMixedPart_of_partOf h.part] at hpart
    exact absurd hpart Bool.false_ne_true

end Node

namespace Enhance

/-! ## Passes that look at no box -/

theorem map_frame_map {f : Node α → Node α} (hf : ∀ n, (f n).frame = n.frame)
    (ns : List (Node α)) : (ns.map f).map Node.frame = ns.map Node.frame := by
  rw [List.map_map]
  exact List.map_congr_left fun n _ => hf n

theorem frame_reclassifyNode (n : Node α) : (reclassifyNode n).frame = n.frame := by
  unfold reclassifyNode
  dsimp only
  split
  · rfl
  · split <;> rfl

theorem unmarked_reclassifyNode {n : Node α} (h : n.Unmarked) : (reclassifyNode n).Unmarked := by
  unfold reclassifyNode
  dsimp only
  split
  · exact ⟨Node.signShown_of_ne Kind.noConfusion, h.part⟩
  · split
    · exact ⟨Node.signShown_of_ne Kind.noConfusion, h.part⟩
    · exact h

theorem map_frame_numberAfter (numbered : List (Node α)) (next : Nat) (ns : List (Node α)) :
    (numberAfter numbered next ns).map Node.frame = ns.map Node.frame := by
  induction ns generalizing numbered next with
  | nil => rfl
  | cons n ns ih =>
    rw [numberAfter]
    split
    · split
      · dsimp only
        rw [List.map_cons, List.map_cons, ih]
        rfl
      · dsimp only
        rw [List.map_cons, List.map_cons, ih]
        rfl
    · rw [List.map_cons, List.map_cons, ih]

theorem coherent_numberAfter {ns : List (Node α)} (h : ∀ n ∈ ns, n.Coherent)
    (numbered : List (Node α)) (next : Nat) : ∀ n ∈ numberAfter numbered next ns, n.Coherent := by
  induction ns generalizing numbered next with
  | nil => exact fun n hn => absurd hn List.not_mem_nil
  | cons a ns ih =>
    have ha := h a List.mem_cons_self
    have hns : ∀ n ∈ ns, n.Coherent := fun n hn => h n (List.mem_cons_of_mem a hn)
    rw [numberAfter]
    intro n hn
    split at hn
    · split at hn
      · rcases List.mem_cons.1 hn with rfl | hn
        · exact ⟨ha.sign, ha.part⟩
        · exact ih hns _ _ n hn
      · rcases List.mem_cons.1 hn with rfl | hn
        · exact ⟨ha.sign, ha.part⟩
        · exact ih hns _ _ n hn
    · rcases List.mem_cons.1 hn with rfl | hn
      · exact ha
      · exact ih hns _ _ n hn

/-- The state of the pass that joins whole numbers with the bars of their fractions. -/
structure Joining (bars state : List (Node α)) : Prop where
  distinct : (state.map (·.number)).Nodup
  coherent : ∀ n ∈ state, n.Coherent
  stillBars : ∀ b ∈ bars, ∀ n ∈ state, n.number = b.number → n.kind = .fracBar

theorem joining_start {ns : List (Node α)} (hdistinct : (ns.map (·.number)).Nodup)
    (h : ∀ n ∈ ns, n.Unmarked) : Joining (ns.filter (·.kind = .fracBar)) ns where
  distinct := hdistinct
  coherent := fun n hn => (h n hn).coherent
  stillBars := by
    intro b hb n hn hnum
    obtain ⟨hbmem, hkind⟩ := List.mem_filter.1 hb
    rw [List.inj_on_of_nodup_map hdistinct hn hbmem hnum]
    exact of_decide_eq_true hkind

variable [Coordinate α]

/-! ## Frames -/

theorem frame_widenBar (margin height : α) (n : Node α) :
    (widenBar margin height n).frame = n.frame := by
  unfold widenBar
  split <;> rfl

theorem frame_resolveNode (ratio : α) (seen : List (Node α)) (n : Node α) :
    (resolveNode ratio seen n).frame = n.frame := by
  unfold resolveNode
  split <;> rfl

theorem map_frame_resolveAfter (ratio : α) (seen ns : List (Node α)) :
    (resolveAfter ratio seen ns).map Node.frame = ns.map Node.frame := by
  induction ns generalizing seen with
  | nil => rfl
  | cons n ns ih =>
    rw [resolveAfter, List.map_cons, List.map_cons, ih, frame_resolveNode]

theorem frame_joinNode (whole bar n : Node α) : (joinNode whole bar n).frame = n.frame := by
  unfold joinNode
  split
  · rfl
  · split
    · rfl
    · split <;> rfl

theorem map_frame_joinWhole (gap : α) (bars state : List (Node α)) (number : Nat) :
    (joinWhole gap bars state number).map Node.frame = state.map Node.frame := by
  unfold joinWhole
  split
  · rfl
  · split
    · split
      · rfl
      · exact map_frame_map (frame_joinNode _ _) state
    · rfl

theorem map_frame_foldl_joinWhole (gap : α) (bars : List (Node α)) (numbers : List Nat)
    (state : List (Node α)) :
    (numbers.foldl (joinWhole gap bars) state).map Node.frame = state.map Node.frame := by
  induction numbers generalizing state with
  | nil => rfl
  | cons k ks ih => rw [List.foldl_cons, ih, map_frame_joinWhole]

theorem map_frame_run (t : Tolerances α) (height : α) (p : SurfaceMap.Pass)
    (ns : List (Node α)) : (p.run t height ns).map Node.frame = ns.map Node.frame := by
  cases p with
  | widen => exact map_frame_map (frame_widenBar _ _) ns
  | reclassify => exact map_frame_map frame_reclassifyNode ns
  | minus => exact map_frame_resolveAfter _ _ ns
  | mixed => exact map_frame_foldl_joinWhole _ _ _ ns
  | slots => exact map_frame_numberAfter _ _ ns

theorem map_frame_foldl_run (t : Tolerances α) (height : α) (ps : List SurfaceMap.Pass)
    (ns : List (Node α)) :
    (ps.foldl (fun ns p => p.run t height ns) ns).map Node.frame = ns.map Node.frame := by
  induction ps generalizing ns with
  | nil => rfl
  | cons p ps ih => rw [List.foldl_cons, ih, map_frame_run]

/-! ## Kinds and marks -/

theorem unmarked_widenBar {n : Node α} (h : n.Unmarked) (margin height : α) :
    (widenBar margin height n).Unmarked := by
  unfold widenBar
  split
  · exact ⟨h.sign, h.part⟩
  · exact h

theorem unmarked_resolveNode {n : Node α} (h : n.Unmarked) (ratio : α) (seen : List (Node α)) :
    (resolveNode ratio seen n).Unmarked := by
  unfold resolveNode
  split
  · next hglyph => exact ⟨fun _ => hglyph, h.part⟩
  · exact h

theorem unmarked_resolveAfter (ratio : α) {ns : List (Node α)} (h : ∀ n ∈ ns, n.Unmarked)
    (seen : List (Node α)) : ∀ n ∈ resolveAfter ratio seen ns, n.Unmarked := by
  induction ns generalizing seen with
  | nil => exact fun n hn => absurd hn List.not_mem_nil
  | cons a ns ih =>
    rw [resolveAfter]
    intro n hn
    rcases List.mem_cons.1 hn with rfl | hn
    · exact unmarked_resolveNode (h a List.mem_cons_self) ratio seen
    · exact ih (fun b hb => h b (List.mem_cons_of_mem a hb)) _ n hn

theorem number_joinNode (whole bar n : Node α) : (joinNode whole bar n).number = n.number :=
  congrArg Frame.number (frame_joinNode whole bar n)

/-- A whole number that is joined becomes a mixed number; its bar stays a bar, and what
else becomes a part is a numeral. -/
theorem Joining.coherent_joinNode {bars state : List (Node α)} (h : Joining bars state)
    {whole bar n : Node α} (hwhole : whole ∈ state) (hpart : whole.isMixedPart = false)
    (hbar : bar ∈ bars) (hn : n ∈ state) : (joinNode whole bar n).Coherent := by
  unfold joinNode
  split
  · next hnum =>
    rw [List.inj_on_of_nodup_map h.distinct hn hwhole hnum]
    refine ⟨Node.signShown_of_ne Kind.noConfusion, ?_⟩
    intro hmarked
    rw [show whole.isMixedPart = true from hmarked] at hpart
    exact absurd hpart.symm Bool.false_ne_true
  · split
    · next hnum => exact ⟨(h.coherent n hn).sign, fun _ => Or.inr (h.stillBars bar hbar n hn hnum)⟩
    · split
      · next hstands =>
        rw [Bool.and_eq_true] at hstands
        exact ⟨(h.coherent n hn).sign, fun _ => Or.inl hstands.1⟩
      · exact h.coherent n hn

/-- Only the whole number changes its kind, and it is no bar. -/
theorem kind_joinNode {state : List (Node α)} (hdistinct : (state.map (·.number)).Nodup)
    {whole bar n : Node α} (hwhole : whole ∈ state) (hnumeric : whole.kind.isNumeric = true)
    (hn : n ∈ state) (hkind : n.kind = .fracBar) : (joinNode whole bar n).kind = .fracBar := by
  unfold joinNode
  split
  · next hsame =>
    rw [List.inj_on_of_nodup_map hdistinct hn hwhole hsame] at hkind
    rw [hkind] at hnumeric
    exact absurd hnumeric (by decide)
  · split
    · exact hkind
    · split
      · exact hkind
      · exact hkind

theorem Joining.joinWhole {gap : α} {bars state : List (Node α)} (h : Joining bars state)
    (number : Nat) : Joining bars (joinWhole gap bars state number) := by
  unfold Enhance.joinWhole
  split
  · exact h
  · next whole hfound =>
    split
    · next hnumeral =>
      split
      · exact h
      · next bar hbar =>
        rw [Bool.and_eq_true, Bool.not_eq_true'] at hnumeral
        have hwhole : whole ∈ state := List.mem_of_find?_eq_some hfound
        refine ⟨?_, ?_, ?_⟩
        · have hnumbers : state.map ((fun n : Node α => n.number) ∘ joinNode whole bar) =
              state.map (·.number) := List.map_congr_left fun n _ => number_joinNode whole bar n
          rw [List.map_map, hnumbers]
          exact h.distinct
        · intro n' hn'
          obtain ⟨n, hn, rfl⟩ := List.mem_map.1 hn'
          exact h.coherent_joinNode hwhole hnumeral.2 (List.mem_of_find?_eq_some hbar) hn
        · intro b hb n' hn' hnum
          obtain ⟨n, hn, rfl⟩ := List.mem_map.1 hn'
          rw [number_joinNode] at hnum
          exact kind_joinNode h.distinct hwhole hnumeral.1 hn (h.stillBars b hb n hn hnum)
    · exact h

theorem Joining.foldl {gap : α} {bars state : List (Node α)} (h : Joining bars state)
    (numbers : List Nat) : Joining bars (numbers.foldl (Enhance.joinWhole gap bars) state) := by
  induction numbers generalizing state with
  | nil => exact h
  | cons k ks ih => exact ih (h.joinWhole k)

end Enhance

namespace SurfaceMap

open Enhance

/-! ## Putting nodes back -/

/-- Changed atoms take the places of the atoms they were made from. -/
theorem restore_changes {m : SurfaceMap α} {ns changed : List (Node α)} (hm : Placed m.root)
    (hns : ∀ n ∈ ns, n ∈ m.nodes) (hframe : changed.map Node.frame = ns.map Node.frame) :
    Changes (fun n n' => n'.frame = n.frame ∧ (n' = n ∨ n' ∈ changed)) m (m.restore changed) := by
  refine ⟨_, rfl, ?_⟩
  intro n hn
  cases hfind : changed.find? (·.number == n.number) with
  | none => exact ⟨rfl, Or.inl rfl⟩
  | some c =>
    have hc : c ∈ changed := List.mem_of_find?_eq_some hfind
    have hnumber : c.number = n.number := by
      have htest := List.find?_some hfind
      exact beq_iff_eq.1 htest
    have hframes := List.mem_map_of_mem (f := Node.frame) hc
    rw [hframe] at hframes
    obtain ⟨a, ha, heq⟩ := List.mem_map.1 hframes
    have han : a = n :=
      hm.eq_of_number (hns a ha) hn ((congrArg Frame.number heq).trans hnumber)
    rw [han] at heq
    exact ⟨heq.symm, Or.inr hc⟩

variable [Coordinate α]

theorem mem_nodes_of_mem_atomsInOrder {m : SurfaceMap α} {n : Node α}
    (h : n ∈ m.atomsInOrder) : n ∈ m.nodes :=
  (List.mem_filter.1 ((sortBy_perm _ m.atoms).mem_iff.1 h)).1

theorem nodup_atomsInOrder {m : SurfaceMap α} (hm : Placed m.root) :
    (m.atomsInOrder.map (·.number)).Nodup := by
  have hatoms : (m.atoms.map (·.number)).Nodup :=
    (List.filter_sublist.map _).nodup hm.distinct
  exact ((sortBy_perm _ m.atoms).map _).nodup_iff.2 hatoms

/-- The passes after the bars have been widened. -/
theorem coherent_refined (t : Tolerances α) (height : α) {ns : List (Node α)}
    (hdistinct : (ns.map (·.number)).Nodup) (h : ∀ n ∈ ns, n.Unmarked) :
    ∀ n ∈ [Pass.reclassify, .minus, .mixed, .slots].foldl (fun ns p => p.run t height ns) ns,
      n.Coherent := by
  have hreclassified : ∀ n ∈ reclassify ns, n.Unmarked := by
    intro n hn
    obtain ⟨a, ha, rfl⟩ := List.mem_map.1 hn
    exact unmarked_reclassifyNode (h a ha)
  have hresolved := unmarked_resolveAfter t.minusOverlap hreclassified []
  have hnumbers : (resolveMinus t.minusOverlap (reclassify ns)).map (·.number) =
      ns.map (·.number) := by
    have hframes : (resolveMinus t.minusOverlap (reclassify ns)).map Node.frame =
        ns.map Node.frame :=
      (map_frame_run t height .minus _).trans (map_frame_run t height .reclassify ns)
    have hmap := congrArg (List.map Frame.number) hframes
    rwa [List.map_map, List.map_map] at hmap
  have hjoining := joining_start (hnumbers ▸ hdistinct) hresolved
  exact coherent_numberAfter (hjoining.foldl _).coherent [] 0

/-- Refining keeps every frame, and leaves signs and parts as they should be. -/
theorem enhance_changes (t : Tolerances α) {m : SurfaceMap α} (hm : Placed m.root)
    (h : ∀ n ∈ m.nodes, n.Unmarked) :
    Changes (fun n n' => n'.frame = n.frame ∧ n'.Coherent) m (m.enhance t) := by
  have hwidened : Changes (fun n n' => n'.frame = n.frame ∧ n'.Unmarked) m
      (m.runPass t .widen) := by
    obtain ⟨f, hf, hR⟩ := restore_changes hm (fun n => mem_nodes_of_mem_atomsInOrder)
      (map_frame_run t m.height .widen m.atomsInOrder)
    refine ⟨f, hf, ?_⟩
    intro n hn
    obtain ⟨hframe, hsame | hchanged⟩ := hR n hn
    · rw [hsame]
      exact ⟨rfl, h n hn⟩
    · obtain ⟨a, ha, heq⟩ := List.mem_map.1 hchanged
      refine ⟨hframe, ?_⟩
      rw [← heq]
      exact unmarked_widenBar (h a (mem_nodes_of_mem_atomsInOrder ha)) _ _
  have hplaced : Placed (m.runPass t .widen).root := by
    refine hwidened.placed ?_ hm
    rintro a b ⟨hframe, -⟩
    exact ⟨congrArg Frame.number hframe, congrArg Frame.above hframe⟩
  have hunmarked : ∀ n ∈ (m.runPass t .widen).nodes, n.Unmarked := by
    intro n' hn'
    obtain ⟨n, -, -, hunmarked⟩ := hwidened.exists_of_mem_nodes hn'
    exact hunmarked
  have hrefined : Changes (fun n n' => n'.frame = n.frame ∧ n'.Coherent)
      (m.runPass t .widen) (m.enhance t) := by
    have hcoherent := coherent_refined t (m.runPass t .widen).height (nodup_atomsInOrder hplaced)
      fun n hn => hunmarked n (mem_nodes_of_mem_atomsInOrder hn)
    obtain ⟨f, hf, hR⟩ := restore_changes hplaced (fun n => mem_nodes_of_mem_atomsInOrder)
      (map_frame_foldl_run t (m.runPass t .widen).height
        [.reclassify, .minus, .mixed, .slots] (m.runPass t .widen).atomsInOrder)
    refine ⟨f, hf, ?_⟩
    intro n hn
    obtain ⟨hframe, hsame | hchanged⟩ := hR n hn
    · rw [hsame]
      exact ⟨rfl, (hunmarked n hn).coherent⟩
    · exact ⟨hframe, hcoherent _ hchanged⟩
  have hwidened' := hwidened.mono fun a b hab =>
    (⟨hab.1, hab.2.coherent⟩ : b.frame = a.frame ∧ b.Coherent)
  exact hwidened'.trans (fun a b c hab hbc => ⟨hbc.1.trans hab.1, hbc.2⟩) hrefined

end SurfaceMap
end FormulaMap

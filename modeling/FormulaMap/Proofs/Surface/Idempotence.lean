/-
Refining a map again.

A run over a built map leaves findings (`exists_refinedMap_build`), and another run writes
what the decimals among them claim.  So it changes nothing if and only if no decimal claims
what another whole number, that is no decimal, has claimed after it
(`enhance_enhance_build`); from the second run on nothing changes in any case.
-/
import FormulaMap.Proofs.Surface.Runs
import FormulaMap.Proofs.Surface.WellFormed

namespace FormulaMap

variable {α : Type}

theorem Node.eq_of_asDrawn {a n : Node α} (h : a.asDrawn = n.asDrawn) :
    a = { n with kind := a.kind, slot := a.slot, marks := a.marks } :=
  calc a = { a.asDrawn with kind := a.kind, slot := a.slot, marks := a.marks } := rfl
    _ = { n.asDrawn with kind := a.kind, slot := a.slot, marks := a.marks } := by rw [h]
    _ = { n with kind := a.kind, slot := a.slot, marks := a.marks } := rfl

/-! ## Maps -/

namespace SurfaceMap

open Enhance

variable {m : SurfaceMap α}

theorem placed_mapNodes {g : Node α → Node α} (hg : ∀ n, (g n).asDrawn = n.asDrawn)
    (hm : Placed m.root) : Placed (m.mapNodes g).root := by
  have hchanges : Changes (fun n n' => n'.asDrawn = n.asDrawn) m (m.mapNodes g) :=
    ⟨g, rfl, fun n _ => hg n⟩
  refine hchanges.placed (fun a b hab => ?_) hm
  exact ⟨(congrArg Node.number hab :), (congrArg Node.above hab :)⟩

variable [Coordinate α]

/-- Writing to the atoms in order writes to the atoms where they are. -/
theorem restore_map (hm : Placed m.root) {f : Node α → Node α}
    (hf : ∀ n, (f n).number = n.number) :
    m.restore (m.atomsInOrder.map f) = m.mapNodes fun n => if n.atom then f n else n := by
  have hmem : ∀ n, n ∈ m.atomsInOrder ↔ n ∈ m.nodes ∧ n.atom = true := fun n => by
    rw [atomsInOrder, spatialOrder, (sortBy_perm _ m.atoms).mem_iff, atoms, List.mem_filter]
  have hnode : ∀ n ∈ m.root.preorder,
      ((m.atomsInOrder.map f).find? (·.number == n.number)).getD n = if n.atom then f n else n := by
    intro n hn
    have hfind : (m.atomsInOrder.map f).find? (·.number == n.number) =
        (m.atomsInOrder.find? (·.number == n.number)).map f := by
      rw [List.find?_map]
      simp only [Function.comp_def, hf]
    rw [hfind]
    split
    · next hatom =>
      rw [find?_number (nodup_atomsInOrder hm) ((hmem n).2 ⟨hn, hatom⟩)]
      rfl
    · next hatom =>
      have hnone : m.atomsInOrder.find? (·.number == n.number) = none := by
        rw [List.find?_eq_none]
        intro a ha hnumber
        obtain ⟨hanode, haatom⟩ := (hmem a).1 ha
        rw [hm.eq_of_number hanode hn (beq_iff_eq.1 hnumber)] at haatom
        exact hatom haatom
      rw [hnone]
      rfl
  rw [restore, mapNodes, mapNodes, Tree.map_congr m.root hnode]

theorem atomsInOrder_mapNodes {g : Node α → Node α} (hg : ∀ n, (g n).asDrawn = n.asDrawn)
    (m : SurfaceMap α) : (m.mapNodes g).atomsInOrder = m.atomsInOrder.map g := by
  have hatom : ∀ n, (g n).atom = n.atom := fun n => (congrArg Node.atom (hg n) :)
  have hcorner : ∀ n, corner (g n) = corner n := fun n => (congrArg corner (hg n) :)
  rw [atomsInOrder, atoms, nodes_mapNodes, List.filter_map, spatialOrder, sortBy_map]
  simp only [hcorner, Function.comp_def, hatom]
  rfl

/-- Nodes that are put back can be written in their places. -/
theorem exists_restore (hm : Placed m.root) {changed : List (Node α)}
    (hdrawn : changed.map Node.asDrawn = m.atomsInOrder.map Node.asDrawn) :
    ∃ g : Node α → Node α, (∀ n, (g n).asDrawn = n.asDrawn) ∧
      m.restore changed = m.mapNodes g ∧ m.atomsInOrder.map g = changed := by
  have hnumbers : changed.map (·.number) = m.atomsInOrder.map (·.number) := by
    have h := congrArg (List.map Node.number) hdrawn
    rwa [List.map_map, List.map_map] at h
  let g : Node α → Node α := fun n =>
    { n with
      kind := (replaceBy changed n).kind
      slot := (replaceBy changed n).slot
      marks := (replaceBy changed n).marks }
  have hput : ∀ n ∈ m.nodes, replaceBy changed n = g n := by
    intro n hn
    refine Node.eq_of_asDrawn ?_
    cases hfind : changed.find? (·.number == n.number) with
    | none =>
      rw [replaceBy, hfind]
      rfl
    | some c =>
      have hmem := List.mem_map_of_mem (f := Node.asDrawn) (List.mem_of_find?_eq_some hfind)
      have hnumber := List.find?_some hfind
      rw [hdrawn] at hmem
      obtain ⟨a, ha, heq⟩ := List.mem_map.1 hmem
      have hsame : a = n := hm.eq_of_number (mem_nodes_of_mem_atomsInOrder ha) hn
        ((congrArg Node.number heq :).trans (beq_iff_eq.1 hnumber))
      rw [replaceBy, hfind, ← hsame]
      exact heq.symm
  refine ⟨g, fun _ => rfl, ?_, ?_⟩
  · show m.mapNodes (replaceBy changed) = m.mapNodes g
    rw [mapNodes, mapNodes, Tree.map_congr m.root hput]
  · rw [← List.map_congr_left fun n hn => hput n (mem_nodes_of_mem_atomsInOrder hn)]
    exact map_replaceBy (nodup_atomsInOrder hm) hnumbers

theorem enhance_eq_restore (t : Tolerances α) (m : SurfaceMap α) :
    m.enhance t = (m.runPass t .widen).restore (refined t (m.runPass t .widen).atomsInOrder) := by
  unfold enhance
  dsimp only
  rfl

theorem enhance_of_widened (t : Tolerances α) (hm : Placed m.root)
    (h : ∀ n ∈ m.atomsInOrder, n.kind = .fracBar → n.marks.widened = true) :
    m.enhance t = m.restore (refined t m.atomsInOrder) := by
  have hwiden : m.runPass t .widen = m := by
    have hsame : widenBars t.barExpansion m.height m.atomsInOrder = m.atomsInOrder := by
      refine (List.map_congr_left fun n hn => ?_).trans (List.map_id _)
      rw [widenBar, if_neg]
      · rfl
      · rw [Bool.and_eq_true, decide_eq_true_eq, Bool.not_eq_true']
        rintro ⟨hkind, hwidened⟩
        rw [h n hn hkind] at hwidened
        exact Bool.noConfusion hwidened
    show m.restore (widenBars t.barExpansion m.height m.atomsInOrder) = m
    rw [hsame]
    exact restore_of_subset hm fun n => mem_nodes_of_mem_atomsInOrder
  rw [enhance_eq_restore, hwiden]

/-! ## Refined maps -/

/-- A map that has been refined: its atoms are what a run has made of resolved ones. -/
structure RefinedMap (t : Tolerances α) (ns : List (Node α)) (r : Findings α) (m : SurfaceMap α) :
    Prop where
  placed : Placed m.root
  atoms : m.atomsInOrder = ns.map r.after
  refined : Refined t ns r
  widened : ∀ n ∈ ns, n.kind = .fracBar → n.marks.widened = true

variable {t : Tolerances α} {ns : List (Node α)} {r : Findings α}

theorem RefinedMap.mem_atoms_iff (h : RefinedMap t ns r m) {n : Node α} :
    n ∈ m.atoms ↔ ∃ a ∈ ns, r.after a = n := by
  rw [← List.mem_map, ← h.atoms]
  exact (sortBy_perm _ m.atoms).mem_iff.symm

/-- Refining once more writes to the atoms what the joints of decimals claim. -/
theorem RefinedMap.enhance_eq (h : RefinedMap t ns r m) :
    m.enhance t = m.mapNodes fun n =>
      if n.atom then remark (r.joints.filter Joint.isDecimal) n else n := by
  have hwidened : ∀ n ∈ m.atomsInOrder, n.kind = .fracBar → n.marks.widened = true := by
    rw [h.atoms]
    intro n hn hkind
    obtain ⟨a, ha, rfl⟩ := List.mem_map.1 hn
    refine h.widened a ha ?_
    rw [Findings.kind_after] at hkind
    split at hkind
    · exact absurd hkind Kind.noConfusion
    · exact hkind
  rw [enhance_of_widened t h.placed hwidened, h.atoms, h.refined.refined_after, ← h.atoms]
  exact restore_map h.placed fun _ => rfl

theorem RefinedMap.exists_part (h : RefinedMap t ns r m) : ∃ part : Node α → Option String,
    m.enhance t = m.mapNodes fun n => withPart (part n) n := by
  refine ⟨fun n => if n.atom then (owner? (r.joints.filter Joint.isDecimal) n).or n.marks.partOf
    else n.marks.partOf, ?_⟩
  rw [h.enhance_eq]
  refine congrArg (mapNodes · m) (funext fun n => ?_)
  dsimp only
  cases n.atom with
  | true => rfl
  | false => rfl

theorem RefinedMap.enhance (h : RefinedMap t ns r m) : RefinedMap t ns r.rerun (m.enhance t) := by
  have hdrawn : ∀ n : Node α,
      (if n.atom then remark (r.joints.filter Joint.isDecimal) n else n).asDrawn = n.asDrawn := by
    intro n
    split <;> rfl
  have hatoms : ∀ n ∈ m.atomsInOrder,
      (if n.atom then remark (r.joints.filter Joint.isDecimal) n else n) =
        remark (r.joints.filter Joint.isDecimal) n := fun n hn =>
    if_pos (List.mem_filter.1 ((sortBy_perm _ m.atoms).mem_iff.1 hn)).2
  rw [h.enhance_eq]
  refine ⟨placed_mapNodes hdrawn h.placed, ?_, h.refined.rerun.1, h.widened⟩
  rw [atomsInOrder_mapNodes hdrawn, List.map_congr_left hatoms, h.atoms, ← h.refined.refined_after,
    h.refined.rerun.2]

/-- From the second run on nothing changes. -/
theorem RefinedMap.enhance_enhance (h : RefinedMap t ns r m) :
    (m.enhance t).enhance t = m.enhance t := by
  let again : Node α → Node α := fun n =>
    if n.atom then remark (r.joints.filter Joint.isDecimal) n else n
  have hagain : ∀ n, again (again n) = again n := by
    intro n
    by_cases hatom : n.atom = true
    · have honce : again n = remark (r.joints.filter Joint.isDecimal) n := if_pos hatom
      have htwice : again (remark (r.joints.filter Joint.isDecimal) n) =
          remark (r.joints.filter Joint.isDecimal) (remark (r.joints.filter Joint.isDecimal) n) :=
        if_pos hatom
      rw [honce, htwice, remark_remark]
    · have honce : again n = n := if_neg hatom
      rw [honce, honce]
  rw [h.enhance.enhance_eq, h.enhance_eq]
  show (m.mapNodes again).mapNodes again = m.mapNodes again
  rw [mapNodes, mapNodes, Tree.map_map]
  exact congrArg (fun root => ({ m with root := root } : SurfaceMap α))
    (Tree.map_congr m.root fun n _ => hagain n)

/-! ## Built maps -/

/-- What is known of the atoms of a built map. -/
theorem unmarked_build (t : Tolerances α) (container : Address) (layout : Layout α) :
    ∀ n ∈ (build t container layout).nodes, n.atom = true →
      n.id ≠ "" ∧ n.marks = .none ∧ n.kind ≠ .mixedNumber := by
  intro n hn hatom
  rcases List.mem_cons.1 hn with rfl | hn
  · exact absurd hatom Bool.false_ne_true
  · obtain ⟨stem, hid⟩ := exists_idOf t container layout n hn
    obtain ⟨l, -, d, hshows, hnode⟩ := exists_source t container layout n hn
    have hknown : ∀ c ∈ Category.known, c.kind ≠ .mixedNumber := by decide
    refine ⟨hid ▸ Node.idOf_ne_empty stem n.number, ?_, ?_⟩
    · rw [hnode]
      rfl
    · rw [hnode]
      exact hknown d.category hshows.category_mem_known

theorem widenBar_eq (margin height : α) (n : Node α) : ∃ box widened,
    widenBar margin height n =
      { n with box := box, marks := { n.marks with widened := widened } } := by
  unfold widenBar
  split
  · exact ⟨_, true, rfl⟩
  · exact ⟨n.box, n.marks.widened, rfl⟩

theorem widened_widenBar (margin height : α) {n : Node α}
    (h : (widenBar margin height n).kind = .fracBar) :
    (widenBar margin height n).marks.widened = true := by
  unfold widenBar at h ⊢
  split
  · rfl
  · next hdone =>
    rw [if_neg hdone] at h
    rw [Bool.and_eq_true, decide_eq_true_eq, Bool.not_eq_true'] at hdone
    exact Bool.not_eq_false _ |>.mp fun hwidened => hdone ⟨h, hwidened⟩

theorem runPass_widen (t : Tolerances α) (hm : Placed m.root) :
    m.runPass t .widen = m.mapNodes fun n =>
      if n.atom then widenBar t.barExpansion m.height n else n :=
  restore_map hm fun n => by
    obtain ⟨box, widened, heq⟩ := widenBar_eq t.barExpansion m.height n
    rw [heq]

theorem placed_widen (t : Tolerances α) (hm : Placed m.root) :
    Placed (m.runPass t .widen).root := by
  have hchanges : Changes (fun n n' => n'.number = n.number ∧ n'.above = n.above) m
      (m.runPass t .widen) := by
    refine ⟨_, runPass_widen t hm, fun n _ => ?_⟩
    obtain ⟨box, widened, heq⟩ := widenBar_eq t.barExpansion m.height n
    rw [heq]
    split <;> exact ⟨rfl, rfl⟩
  exact hchanges.placed (fun _ _ h => h) hm

theorem exists_of_mem_widen {t : Tolerances α} (hm : Placed m.root) {n : Node α}
    (hn : n ∈ (m.runPass t .widen).atomsInOrder) :
    ∃ a ∈ m.nodes, a.atom = true ∧ n = widenBar t.barExpansion m.height a := by
  obtain ⟨hnode, hatom⟩ := List.mem_filter.1 ((sortBy_perm _ _).mem_iff.1 hn)
  rw [runPass_widen t hm, nodes_mapNodes] at hnode
  obtain ⟨a, ha, rfl⟩ := List.mem_map.1 hnode
  have haatom : a.atom = true := by
    obtain ⟨box, widened, heq⟩ := widenBar_eq t.barExpansion m.height a
    rw [heq] at hatom
    split at hatom <;> exact hatom
  exact ⟨a, ha, haatom, if_pos haatom⟩

/-- A built map whose bars have been widened. -/
structure WidenedMap (m : SurfaceMap α) : Prop where
  placed : Placed m.root
  unrefined : Unrefined m.atomsInOrder
  ids : ∀ a ∈ m.atomsInOrder, ∀ b ∈ m.atomsInOrder, a.id = b.id → a = b
  widened : ∀ n ∈ m.atomsInOrder, n.kind = .fracBar → n.marks.widened = true

theorem widenedMap_build (t : Tolerances α) (container : Address) (layout : Layout α) :
    WidenedMap ((build t container layout).runPass t .widen) := by
  have hm := placed_build t container layout
  have hmade : ∀ n ∈ ((build t container layout).runPass t .widen).atomsInOrder,
      n.id ≠ "" ∧ (n.marks.bar = none ∧ n.marks.partOf = none) ∧ n.kind ≠ .mixedNumber := by
    intro n hn
    obtain ⟨a, ha, hatom, rfl⟩ := exists_of_mem_widen hm hn
    obtain ⟨hid, hmarks, hkind⟩ := unmarked_build t container layout a ha hatom
    obtain ⟨box, widened, heq⟩ := widenBar_eq t.barExpansion (build t container layout).height a
    rw [heq]
    refine ⟨hid, ?_, hkind⟩
    dsimp only
    rw [hmarks]
    exact ⟨rfl, rfl⟩
  refine ⟨placed_widen t hm, ⟨nodup_atomsInOrder (placed_widen t hm), fun n hn => (hmade n hn).1,
    fun n hn => (hmade n hn).2.1, fun n hn => (hmade n hn).2.2⟩, ?_, ?_⟩
  · intro a ha b hb hid
    obtain ⟨c, hc, -, rfl⟩ := exists_of_mem_widen hm ha
    obtain ⟨d, hd, -, rfl⟩ := exists_of_mem_widen hm hb
    have hsame : ∀ n, (widenBar t.barExpansion (build t container layout).height n).id = n.id :=
      fun n => (congrArg Frame.id (frame_widenBar _ _ n) :)
    rw [hsame, hsame] at hid
    rw [eq_of_id t container layout hc hd hid]
  · intro n hn hkind
    obtain ⟨a, -, -, rfl⟩ := exists_of_mem_widen hm hn
    exact widened_widenBar _ _ hkind

/-- The first run: parts are marked as parts of what claims them last. -/
theorem WidenedMap.exists_refinedMap (h : WidenedMap m) (t : Tolerances α) :
    ∃ ns r, RefinedMap t ns r (m.restore (Enhance.refined t m.atomsInOrder)) ∧
      (∀ n ∈ ns, r.part n = owner? r.joints n) ∧ ∀ a ∈ ns, ∀ b ∈ ns, a.id = b.id → a = b := by
  obtain ⟨r, hrefined, hrun, hpart⟩ := exists_findings t h.unrefined
  obtain ⟨g, hg, hrestore, hmap⟩ :=
    exists_restore h.placed (map_asDrawn_refined t h.unrefined.distinct)
  rw [hrestore]
  refine ⟨_, r, ⟨placed_mapNodes hg h.placed, ?_, hrefined, fun n hn hkind => ?_⟩, fun n hn => ?_,
    fun a ha b hb hid => ?_⟩
  · rw [atomsInOrder_mapNodes hg, hmap, hrun]
  · obtain ⟨a, ha, before, hres, heq⟩ := exists_of_mem_resolveMinus hn
    rw [hres] at hkind
    rw [heq]
    exact h.widened a ha (kind_of_told (Or.inl rfl) hkind)
  · rw [hpart, (hrefined.resolved.noMark n hn).2, Option.or_none]
  · obtain ⟨a', ha', -, -, hasame⟩ := exists_of_mem_resolveMinus ha
    obtain ⟨b', hb', -, -, hbsame⟩ := exists_of_mem_resolveMinus hb
    refine List.inj_on_of_nodup_map hrefined.resolved.distinct ha hb ?_
    rw [hasame, hbsame] at hid
    rw [hasame, hbsame, h.ids a' ha' b' hb' hid]

/-! ## What changes -/

/-- Whether a whole number claims a node: the node is the bar that it is joined with, or a
numeral that stands on this bar. -/
def Claims (m : SurfaceMap α) (whole n : Node α) : Prop :=
  whole.kind = .mixedNumber ∧ ∃ b ∈ m.atoms, whole.marks.bar = some b.id ∧
    (n.number = b.number ∨ n.kind.isNumeric = true ∧ standsOn b n = true)

theorem claims_iff {j : Joint α} {n : Node α} : claims j n = true ↔
    n.number = j.bar.number ∨ n.kind.isNumeric = true ∧ standsOn j.bar n = true := by
  rw [claims, Bool.or_eq_true, Bool.and_eq_true, beq_iff_eq]

/-- The claims of a refined map are those of its joints. -/
theorem RefinedMap.claims_iff (h : RefinedMap t ns r m)
    (hids : ∀ a ∈ ns, ∀ b ∈ ns, a.id = b.id → a = b) {a : Node α} (ha : a ∈ ns) {n : Node α} :
    m.Claims (r.after a) n ↔ ∃ j, jointOf? r.joints a = some j ∧ claims j n = true := by
  have hspec := h.refined.findings.spec h.refined.resolved
  have hbar : ∀ j, jointOf? r.joints a = some j → (r.after a).marks.bar = some j.bar.id :=
    fun j hj => by
      rw [Findings.after, settle, hj]
      rfl
  constructor
  · rintro ⟨hkind, b, hb, hjoined, hn⟩
    cases hj : jointOf? r.joints a with
    | none =>
      rw [Findings.kind_after, hj] at hkind
      exact absurd hkind (h.refined.resolved.noMixed a ha)
    | some j =>
      obtain ⟨c, hc, rfl⟩ := h.mem_atoms_iff.1 hb
      rw [hbar j hj, Option.some.injEq] at hjoined
      have hsame : j.bar = c :=
        hids _ (hspec.bar j (hspec.jointOf?_spec ha hj).1).1 c hc hjoined
      refine ⟨j, rfl, SurfaceMap.claims_iff.2 ?_⟩
      rw [hsame]
      exact hn
  · rintro ⟨j, hj, hn⟩
    refine ⟨by rw [Findings.kind_after, hj]; rfl, r.after j.bar,
      h.mem_atoms_iff.2 ⟨j.bar, (hspec.bar j (hspec.jointOf?_spec ha hj).1).1, rfl⟩, hbar j hj, ?_⟩
    exact SurfaceMap.claims_iff.1 hn

theorem remark_eq_self_iff {js : List (Joint α)} {n : Node α} : remark js n = n ↔
    ∀ j, lastClaim? js n = some j → n.marks.partOf = some j.whole.id := by
  constructor
  · intro hsame j hj
    have hpart : (remark js n).marks.partOf = n.marks.partOf := by rw [hsame]
    rw [← hpart, remark, owner?, hj]
    rfl
  · intro hlast
    rw [remark, owner?]
    cases hj : lastClaim? js n with
    | none => rfl
    | some j =>
      show withPart (some j.whole.id) n = n
      rw [← hlast j hj]
      rfl

/-- The last joint with a claim is still the last among those of decimals, if it is one. -/
theorem lastClaim?_filter {js : List (Joint α)} {n : Node α} {j : Joint α}
    (h : lastClaim? js n = some j) (hdecimal : j.isDecimal = true) :
    lastClaim? (js.filter Joint.isDecimal) n = some j := by
  obtain ⟨before, hbefore⟩ := List.getLast?_eq_some_iff.1 h
  rw [lastClaim?, List.filter_comm, hbefore, List.filter_append, List.filter_singleton, hdecimal]
  exact List.getLast?_concat

/-- A refined map is left as it is if what the joints of decimals claim is marked as theirs. -/
theorem RefinedMap.enhance_eq_self_iff (h : RefinedMap t ns r m) : m.enhance t = m ↔
    ∀ n ∈ ns, remark (r.joints.filter Joint.isDecimal) (r.after n) = r.after n := by
  rw [h.enhance_eq, mapNodes_eq_self_iff]
  constructor
  · intro hfixed n hn
    obtain ⟨hnode, hatom⟩ := List.mem_filter.1 (h.mem_atoms_iff.2 ⟨n, hn, rfl⟩)
    have hn := hfixed (r.after n) hnode
    rwa [if_pos hatom] at hn
  · intro hfixed n hn
    split
    · next hatom =>
      obtain ⟨a, ha, rfl⟩ := h.mem_atoms_iff.1 (List.mem_filter.2 ⟨hn, hatom⟩)
      exact hfixed a ha
    · rfl

theorem RefinedMap.remark_iff (h : RefinedMap t ns r m)
    (hids : ∀ a ∈ ns, ∀ b ∈ ns, a.id = b.id → a = b)
    (hpart : ∀ n ∈ ns, r.part n = owner? r.joints n) :
    (∀ n ∈ ns, remark (r.joints.filter Joint.isDecimal) (r.after n) = r.after n) ↔
      ∀ n ∈ m.atoms, ∀ w ∈ m.atoms, ∀ d ∈ m.atoms, n.marks.partOf = some w.id →
        m.Claims d n → Category.isDecimal d.glyphs = true →
        Category.isDecimal w.glyphs = true := by
  have hspec := h.refined.findings.spec h.refined.resolved
  constructor
  · intro hfixed n hn w hw d hd howned hclaim hdecimal
    obtain ⟨a, ha, rfl⟩ := h.mem_atoms_iff.1 hn
    obtain ⟨b, hb, rfl⟩ := h.mem_atoms_iff.1 hw
    obtain ⟨c, hc, rfl⟩ := h.mem_atoms_iff.1 hd
    obtain ⟨j, hj, hclaims⟩ := (h.claims_iff hids hc).1 hclaim
    obtain ⟨hmem, rfl⟩ := hspec.jointOf?_spec hc hj
    -- The last decimal that claims the node is what the node is a part of.
    have hsome : lastClaim? (r.joints.filter Joint.isDecimal) (r.after a) ≠ none := by
      rw [Ne, lastClaim?_eq_none, Bool.not_eq_false]
      exact List.any_eq_true.2 ⟨j, List.mem_filter.2 ⟨hmem, hdecimal⟩, hclaims⟩
    obtain ⟨i, hi⟩ := Option.ne_none_iff_exists'.1 hsome
    have hlast := remark_eq_self_iff.1 (hfixed a ha) i hi
    rw [howned, Option.some.injEq] at hlast
    obtain ⟨himem, hidecimal⟩ := List.mem_filter.1 (lastClaim?_spec hi).1
    rw [hids b hb i.whole (hspec.whole i himem).1 hlast]
    exact hidecimal
  · intro hlast n hn
    rw [remark_eq_self_iff]
    intro j hj
    obtain ⟨hjmem, hclaims⟩ := lastClaim?_spec hj
    obtain ⟨hmem, hdecimal⟩ := List.mem_filter.1 hjmem
    cases hjoined : jointOf? r.joints n with
    | some i =>
      have hnone : owner? (r.joints.filter Joint.isDecimal) (r.after n) = none :=
        h.refined.findings.owner?_after h.refined.resolved hn hjoined
          fun i hi => (List.mem_filter.1 hi).1
      rw [owner?, hj] at hnone
      exact absurd hnone (Option.some_ne_none _)
    | none =>
      -- What claims the node last of all is a decimal, and so the last of the decimals.
      have hsome : lastClaim? r.joints (r.after n) ≠ none := by
        rw [Ne, lastClaim?_eq_none, Bool.not_eq_false]
        exact List.any_eq_true.2 ⟨j, hmem, hclaims⟩
      obtain ⟨i, hi⟩ := Option.ne_none_iff_exists'.1 hsome
      have himem := (lastClaim?_spec hi).1
      have howned : (r.after n).marks.partOf = some i.whole.id := by
        have hunjoined : (r.after n).marks.partOf = r.part n := by
          rw [Findings.after, settle, hjoined]
          rfl
        rw [hunjoined, hpart n hn, ← Findings.owner?_after_of_none hjoined, owner?, hi]
        rfl
      have hmaker := hlast (r.after n) (h.mem_atoms_iff.2 ⟨n, hn, rfl⟩) (r.after i.whole)
        (h.mem_atoms_iff.2 ⟨i.whole, (hspec.whole i himem).1, rfl⟩) (r.after j.whole)
        (h.mem_atoms_iff.2 ⟨j.whole, (hspec.whole j hmem).1, rfl⟩) howned
        ((h.claims_iff hids (hspec.whole j hmem).1).2 ⟨j, ?_, hclaims⟩) hdecimal
      · rw [lastClaim?_filter hi hmaker, Option.some.injEq] at hj
        rw [howned, hj]
      · have hjoints := h.refined.findings.joints
        rw [hjoints] at hmem ⊢
        exact jointOf?_whole h.refined.resolved.distinct hmem

theorem exists_refinedMap_build (t : Tolerances α) (container : Address) (layout : Layout α) :
    ∃ ns r, RefinedMap t ns r ((build t container layout).enhance t) ∧
      (∀ n ∈ ns, r.part n = owner? r.joints n) ∧ ∀ a ∈ ns, ∀ b ∈ ns, a.id = b.id → a = b := by
  rw [enhance_eq_restore]
  exact (widenedMap_build t container layout).exists_refinedMap t

/-- Refining a built map once more changes at most what nodes are parts of, and from then on
nothing changes.  It changes nothing at all if and only if a part that a decimal claims is a
part of a decimal. -/
theorem enhance_enhance_build (t : Tolerances α) (container : Address) (layout : Layout α) :
    let m := (build t container layout).enhance t
    (∃ part : Node α → Option String, m.enhance t = m.mapNodes fun n => withPart (part n) n) ∧
      (m.enhance t).enhance t = m.enhance t ∧
      (m.enhance t = m ↔
        ∀ n ∈ m.atoms, ∀ w ∈ m.atoms, ∀ d ∈ m.atoms, n.marks.partOf = some w.id →
          m.Claims d n → Category.isDecimal d.glyphs = true →
          Category.isDecimal w.glyphs = true) := by
  obtain ⟨ns, r, hrefined, hpart, hids⟩ := exists_refinedMap_build t container layout
  intro m
  exact ⟨hrefined.exists_part, hrefined.enhance_enhance,
    hrefined.enhance_eq_self_iff.trans (hrefined.remark_iff hids hpart)⟩

/-- A decimal that is set in two pieces, before two thirds. -/
def splitDecimal : Layout Rat :=
  let page : Box Rat := ⟨0, 0, 40, 20⟩
  .node ⟨["katex"], "", page, []⟩ [.node ⟨[formulaClass], "", page, []⟩
    [.node ⟨[groupClass], "", page, []⟩
      [.node ⟨["mord"], "", ⟨0, 0, 20, 20⟩, []⟩
        [.node ⟨["mord"], "1.", ⟨0, 0, 15, 20⟩, []⟩ [],
         .node ⟨["mord"], "5", ⟨15, 0, 20, 20⟩, []⟩ []],
       .node ⟨["mfrac"], "", ⟨22, 0, 40, 20⟩, []⟩
        [.node ⟨["mord"], "2", ⟨28, 0, 34, 8⟩, []⟩ [],
         .node ⟨["frac-line"], "", ⟨22, 9, 40, 11⟩, []⟩ [],
         .node ⟨["mord"], "3", ⟨28, 12, 34, 20⟩, []⟩ []]]]]

/-- The bar is a part of the second piece after the first run, and of the whole decimal after
the second. -/
theorem not_forall_enhance_enhance :
    ¬ ∀ (t : Tolerances Rat) (container : Address) (layout : Layout Rat),
      ((build t container layout).enhance t).enhance t = (build t container layout).enhance t := by
  intro h
  have hdiffer : (((build .standard [] splitDecimal).enhance .standard).enhance .standard).nodes.map
      (fun n => n.marks.partOf) ≠
        ((build .standard [] splitDecimal).enhance .standard).nodes.map fun n => n.marks.partOf := by
    decide +kernel
  exact hdiffer (by rw [h .standard [] splitDecimal])

end SurfaceMap
end FormulaMap

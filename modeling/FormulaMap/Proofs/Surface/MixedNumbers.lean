/-
Whole numbers, their bars and their parts.

The pass over the wholes rewrites kinds and marks while it reads them, and several numbers
may reach for one bar.  In a map that has been refined once, what the pass did can be told
from the atoms alone.  A number is the whole of a mixed number exactly when it is no part of
another one and a bar comes after it, and then its bar is the first of those
(`OnceRefined.joins_iff`).  An atom is marked as a part of a whole exactly when the whole is
the last, in spatial order, of those that claim it (`OnceRefined.partOf_iff`).  So the marks
are consistent (`marksConsistent_enhance`).
-/
import FormulaMap.Proofs.Surface.Idempotence

namespace FormulaMap

variable {α : Type} [Coordinate α]

namespace Enhance

/-! ## Joints -/

theorem jointsAfter_append (gap : α) (bars : List (Node α)) (js : List (Joint α))
    (xs ys : List (Node α)) :
    jointsAfter gap bars js (xs ++ ys) = jointsAfter gap bars (jointsAfter gap bars js xs) ys := by
  induction xs generalizing js with
  | nil => rfl
  | cons x xs ih => exact ih _

/-- When a number comes, some of the joints have been made, and they decide about it. -/
theorem exists_turn (gap : α) {ns : List (Node α)} (hdistinct : (ns.map (·.number)).Nodup)
    {n : Node α} (hn : n ∈ ns) : ∃ js ⊆ joints gap ns,
      jointOf? (joints gap ns) n = nextJoint? gap (ns.filter (·.kind = .fracBar)) js n := by
  have hjoints : joints gap ns = jointsAfter gap (ns.filter (·.kind = .fracBar)) [] ns := rfl
  generalize ns.filter (·.kind = .fracBar) = bars at hjoints ⊢
  rw [hjoints]
  clear hjoints
  obtain ⟨before, after, rfl⟩ := List.append_of_mem hn
  rw [List.map_append, List.nodup_append] at hdistinct
  rw [jointsAfter_append]
  have hnew : jointOf? (jointsAfter gap bars [] before) n = none := by
    refine jointOf?_jointsAfter fun m hm hnumber => ?_
    exact hdistinct.2.2 m.number (List.mem_map_of_mem hm) n.number (by simp) hnumber
  exact ⟨_, subset_jointsAfter gap bars _ (n :: after),
    jointOf?_jointsAfter_cons hdistinct.2.1 hnew⟩

/-- A number that is joined is a numeral, and its bar is the first after it. -/
theorem bar_of_jointOf? {gap : α} {ns : List (Node α)} (hdistinct : (ns.map (·.number)).Nodup)
    {n : Node α} (hn : n ∈ ns) {j : Joint α} (hj : jointOf? (joints gap ns) n = some j) :
    j.whole = n ∧ (ns.filter (·.kind = .fracBar)).find? (follows gap n) = some j.bar := by
  obtain ⟨js, -, hturn⟩ := exists_turn gap hdistinct hn
  obtain ⟨-, -, -, hwhole, hbar⟩ := nextJoint?_eq_some.1 (hturn.symm.trans hj)
  exact ⟨hwhole, hbar⟩

/-- A numeral that nothing claims is joined with the first bar after it. -/
theorem jointOf?_of_free {gap : α} {ns : List (Node α)} (hdistinct : (ns.map (·.number)).Nodup)
    {n b : Node α} (hn : n ∈ ns) (hnumeric : n.kind.isNumeric = true)
    (hpart : n.isMixedPart = false) (hfree : lastClaim? (joints gap ns) n = none)
    (hbar : (ns.filter (·.kind = .fracBar)).find? (follows gap n) = some b) :
    jointOf? (joints gap ns) n = some ⟨n, b⟩ := by
  obtain ⟨js, hjs, hturn⟩ := exists_turn gap hdistinct hn
  rw [hturn]
  refine nextJoint?_eq_some.2 ⟨hnumeric, hpart, ?_, rfl, hbar⟩
  rw [lastClaim?_eq_none, List.any_eq_false] at hfree
  exact List.any_eq_false.2 fun j hj => hfree j (hjs hj)

theorem nodup_joints (gap : α) {ns : List (Node α)} (hdistinct : (ns.map (·.number)).Nodup) :
    (joints gap ns).Nodup :=
  ((whole_joints_sublist gap ns).nodup hdistinct.of_map).of_map

end Enhance

namespace SurfaceMap

open Enhance Coordinate

/-! ## What the atoms show -/

/-- The first bar, in spatial order, that starts less than `gap` to the right of a number and
beside it. -/
def barAfter? (gap : α) (m : SurfaceMap α) (n : Node α) : Option (Node α) :=
  (m.atomsInOrder.filter (·.kind = .fracBar)).find? (follows gap n)

/-- A whole number claims a node, and no whole number after it in spatial order does. -/
def ClaimsLast (m : SurfaceMap α) (whole n : Node α) : Prop :=
  m.Claims whole n ∧ ∀ w, [whole, w].Sublist m.atomsInOrder → ¬m.Claims w n

/-- A map that has been refined once: parts belong to what claims them last. -/
structure OnceRefined (t : Tolerances α) (ns : List (Node α)) (r : Findings α)
    (m : SurfaceMap α) : Prop extends RefinedMap t ns r m where
  part : ∀ n ∈ ns, r.part n = owner? r.joints n
  ids : ∀ a ∈ ns, ∀ b ∈ ns, a.id = b.id → a = b

theorem exists_onceRefined_build (t : Tolerances α) (container : Address) (layout : Layout α) :
    ∃ ns r, OnceRefined t ns r ((build t container layout).enhance t) := by
  obtain ⟨ns, r, hrefined, hpart, hids⟩ := exists_refinedMap_build t container layout
  exact ⟨ns, r, hrefined, hpart, hids⟩

namespace OnceRefined

variable {t : Tolerances α} {ns : List (Node α)} {r : Findings α} {m : SurfaceMap α}
  {a c n w b : Node α}

theorem distinct (h : OnceRefined t ns r m) : (ns.map (·.number)).Nodup :=
  h.refined.resolved.distinct

theorem joints_eq (h : OnceRefined t ns r m) : r.joints = joints t.mixedGap ns :=
  h.refined.findings.joints

theorem spec (h : OnceRefined t ns r m) : Joints ns r.joints :=
  h.refined.findings.spec h.refined.resolved

theorem nodup_atomsInOrder (h : OnceRefined t ns r m) : m.atomsInOrder.Nodup := by
  have hnumbers : (m.atomsInOrder.map (·.number)).Nodup := by
    rw [h.atoms, List.map_map]
    exact h.distinct
  exact hnumbers.of_map

/-! ### Kinds and marks of an atom -/

theorem kind_eq_mixedNumber_iff (h : OnceRefined t ns r m) (ha : a ∈ ns) :
    (r.after a).kind = .mixedNumber ↔ ∃ j, jointOf? r.joints a = some j := by
  rw [Findings.kind_after]
  cases hj : jointOf? r.joints a with
  | none => simpa using h.refined.resolved.noMixed a ha
  | some j => simp

theorem bar_after (h : OnceRefined t ns r m) (ha : a ∈ ns) :
    (r.after a).marks.bar = (jointOf? r.joints a).map (·.bar.id) := by
  show ((jointOf? r.joints a).map (·.bar.id)).or a.marks.bar = _
  rw [(h.refined.resolved.noMark a ha).1, Option.or_none]

theorem partOf_after_of_joined (h : OnceRefined t ns r m) (ha : a ∈ ns) {j : Joint α}
    (hj : jointOf? r.joints a = some j) : (r.after a).marks.partOf = none := by
  show (if (jointOf? r.joints a).isSome then a.marks.partOf else r.part a) = none
  rw [hj]
  exact (h.refined.resolved.noMark a ha).2

theorem partOf_after (h : OnceRefined t ns r m) (ha : a ∈ ns)
    (hj : jointOf? r.joints a = none) :
    (r.after a).marks.partOf = (lastClaim? r.joints (r.after a)).map (·.whole.id) := by
  show (if (jointOf? r.joints a).isSome then a.marks.partOf else r.part a) = _
  rw [hj, ← owner?, Findings.owner?_after_of_none hj]
  exact h.part a ha

/-- An atom that is marked as a part is the part of a whole. -/
theorem isMixedPart_after (h : OnceRefined t ns r m) (ha : a ∈ ns)
    (hj : jointOf? r.joints a = none) :
    (r.after a).isMixedPart = (lastClaim? r.joints (r.after a)).isSome := by
  rw [Node.isMixedPart, Node.mixedOwner?, h.partOf_after ha hj]
  cases hlast : lastClaim? r.joints (r.after a) with
  | none => rfl
  | some j =>
    have hid := h.refined.resolved.ids j.whole (h.spec.whole j (lastClaim?_spec hlast).1).1
    simp [hid]

/-! ### Bars -/

theorem kind_eq_fracBar_iff (h : OnceRefined t ns r m) (ha : a ∈ ns) :
    (r.after a).kind = .fracBar ↔ a.kind = .fracBar := by
  rw [Findings.kind_after]
  cases hj : jointOf? r.joints a with
  | none => simp
  | some j =>
    have hnumeric := h.refined.findings.isNumeric h.refined.resolved ha hj
    constructor
    · exact fun hkind => absurd hkind Kind.noConfusion
    · intro hkind
      rw [hkind] at hnumeric
      exact absurd hnumeric Bool.false_ne_true

theorem barAfter?_after (h : OnceRefined t ns r m) (a : Node α) :
    m.barAfter? t.mixedGap (r.after a) =
      ((ns.filter (·.kind = .fracBar)).find? (follows t.mixedGap a)).map r.after := by
  have hbars : (ns.map r.after).filter (·.kind = .fracBar) =
      (ns.filter (·.kind = .fracBar)).map r.after := by
    rw [List.filter_map]
    refine congrArg (List.map r.after) (List.filter_congr fun n hn => ?_)
    exact decide_eq_decide.2 (h.kind_eq_fracBar_iff hn)
  rw [barAfter?, h.atoms, hbars, List.find?_map]
  rfl

/-- Which numbers are wholes, and with which bars they are joined. -/
theorem joins_iff (h : OnceRefined t ns r m) (hw : w ∈ m.atoms) (hb : b ∈ m.atoms) :
    w.kind = .mixedNumber ∧ w.marks.bar = some b.id ↔
      w.kind.isNumber = true ∧ w.isMixedPart = false ∧ m.barAfter? t.mixedGap w = some b := by
  obtain ⟨a, ha, rfl⟩ := h.mem_atoms_iff.1 hw
  obtain ⟨c, hc, rfl⟩ := h.mem_atoms_iff.1 hb
  rw [h.kind_eq_mixedNumber_iff ha, h.bar_after ha, h.barAfter?_after]
  cases hj : jointOf? r.joints a with
  | some j =>
    have hjoined := hj
    rw [h.joints_eq] at hjoined
    obtain ⟨-, hbar⟩ := bar_of_jointOf? h.distinct ha hjoined
    have hjbar := (h.spec.bar j (h.spec.jointOf?_spec ha hj).1).1
    have hnumber : (r.after a).kind.isNumber = true := by
      rw [(h.kind_eq_mixedNumber_iff ha).2 ⟨j, hj⟩]
      rfl
    have hfree := Node.not_isMixedPart_of_partOf (h.partOf_after_of_joined ha hj)
    have hsame : j.bar.id = (r.after c).id ↔ r.after j.bar = r.after c := by
      refine ⟨fun hid => ?_, fun hsame => by rw [← hsame]; rfl⟩
      rw [h.ids _ hjbar c hc hid]
    simp [hnumber, hfree, hbar, hsame]
  | none =>
    have hkind : (r.after a).kind = a.kind := by
      rw [Findings.kind_after, hj]
      rfl
    refine ⟨fun hjoins => absurd hjoins.1 (by simp), fun ⟨hnumber, hfree, hbar⟩ => ?_⟩
    obtain ⟨d, hd, -⟩ := Option.map_eq_some_iff.1 hbar
    have hnumeric : a.kind.isNumeric = true := by
      have hmixed := h.refined.resolved.noMixed a ha
      rw [hkind] at hnumber
      cases hk : a.kind <;> rw [hk] at hnumber hmixed <;>
        first | rfl | exact absurd hnumber Bool.false_ne_true | exact absurd rfl hmixed
    rw [h.isMixedPart_after ha hj, Option.isSome_eq_false_iff, Option.isNone_iff_eq_none] at hfree
    rw [Findings.lastClaim?_after_of_none hj, h.joints_eq] at hfree
    have hjoint := jointOf?_of_free h.distinct ha hnumeric
      (Node.not_isMixedPart_of_partOf (h.refined.resolved.noMark a ha).2) hfree hd
    rw [← h.joints_eq, hj] at hjoint
    exact absurd hjoint.symm (Option.some_ne_none _)

/-! ### Owners -/

theorem whole_mem (h : OnceRefined t ns r m) {j : Joint α} (hj : j ∈ r.joints) : j.whole ∈ ns :=
  (h.spec.whole j hj).1

theorem jointOf?_whole (h : OnceRefined t ns r m) {j : Joint α} (hj : j ∈ r.joints) :
    jointOf? r.joints j.whole = some j := by
  rw [h.joints_eq] at hj ⊢
  exact Enhance.jointOf?_whole h.distinct hj

theorem claims_whole_iff (h : OnceRefined t ns r m) {j : Joint α} (hj : j ∈ r.joints) :
    m.Claims (r.after j.whole) n ↔ claims j n = true := by
  rw [h.claims_iff h.ids (h.whole_mem hj), h.jointOf?_whole hj]
  simp

theorem whole_sublist (h : OnceRefined t ns r m) {j i : Joint α} (hpair : [j, i].Sublist r.joints) :
    [j.whole, i.whole].Sublist ns := by
  rw [h.joints_eq] at hpair
  exact (hpair.map (·.whole)).trans (whole_joints_sublist t.mixedGap ns)

/-- The whole number that claims a node last in the map is that of the last joint with a claim. -/
theorem claimsLast_iff (h : OnceRefined t ns r m) (hc : c ∈ ns) :
    m.ClaimsLast (r.after c) n ↔ ∃ j, lastClaim? r.joints n = some j ∧ j.whole = c := by
  have hnodup : r.joints.Nodup := h.joints_eq ▸ nodup_joints t.mixedGap h.distinct
  constructor
  · rintro ⟨hclaim, hlater⟩
    obtain ⟨j, hj, hclaims⟩ := (h.claims_iff h.ids hc).1 hclaim
    obtain ⟨hmem, rfl⟩ := h.spec.jointOf?_spec hc hj
    refine ⟨j, (getLast?_filter_eq_some_iff hnodup).2 ⟨hmem, hclaims, fun i hpair => ?_⟩, rfl⟩
    have himem : i ∈ r.joints := hpair.subset (by simp)
    have hafter : [r.after j.whole, r.after i.whole].Sublist m.atomsInOrder := by
      rw [h.atoms]
      exact (h.whole_sublist hpair).map r.after
    exact Bool.eq_false_iff.2 fun hi => hlater _ hafter ((h.claims_whole_iff himem).2 hi)
  · rintro ⟨j, hlast, rfl⟩
    obtain ⟨hmem, hclaims, hlater⟩ := (getLast?_filter_eq_some_iff hnodup).1 hlast
    refine ⟨(h.claims_whole_iff hmem).2 hclaims, fun w hpair hclaim => ?_⟩
    rw [h.atoms, List.sublist_map_iff] at hpair
    obtain ⟨l, hl, heq⟩ := hpair
    obtain ⟨a, d, rfl⟩ : ∃ a d, l = [a, d] := by
      have hlength := congrArg List.length heq
      rw [List.length_map] at hlength
      exact List.length_eq_two.1 hlength.symm
    simp only [List.map_cons, List.map_nil, List.cons.injEq, and_true] at heq
    obtain ⟨ha, rfl⟩ := heq
    have hd : d ∈ ns := hl.subset (by simp)
    obtain rfl : j.whole = a := h.ids _ hc _ (hl.subset (by simp)) (congrArg Node.id ha :)
    obtain ⟨i, hi, hiclaims⟩ := (h.claims_iff h.ids hd).1 hclaim
    obtain ⟨himem, rfl⟩ := h.spec.jointOf?_spec hd hi
    have hne : j ≠ i := by
      rintro rfl
      exact absurd (h.distinct.of_map.sublist hl) (by simp)
    rcases pair_sublist_or hmem himem hne with hji | hij
    · rw [hlater i hji] at hiclaims
      exact Bool.false_ne_true hiclaims
    · exact not_pair_sublist h.distinct.of_map hl (h.whole_sublist hij)

/-- What an atom is marked as a part of is what claims it last, as the map stands. -/
theorem marks_partOf (h : OnceRefined t ns r m) (ha : a ∈ ns) :
    (r.after a).marks.partOf = (lastClaim? r.joints (r.after a)).map (·.whole.id) := by
  cases hj : jointOf? r.joints a with
  | none => exact h.partOf_after ha hj
  | some j =>
    rw [h.partOf_after_of_joined ha hj]
    exact (h.refined.findings.owner?_after h.refined.resolved ha hj fun _ hi => hi).symm

/-- Which atoms are marked as parts, and of which whole. -/
theorem partOf_iff (h : OnceRefined t ns r m) (hn : n ∈ m.atoms) (hw : w ∈ m.atoms) :
    n.marks.partOf = some w.id ↔ m.ClaimsLast w n := by
  obtain ⟨a, ha, rfl⟩ := h.mem_atoms_iff.1 hn
  obtain ⟨c, hc, rfl⟩ := h.mem_atoms_iff.1 hw
  rw [h.marks_partOf ha, h.claimsLast_iff hc, Option.map_eq_some_iff]
  refine exists_congr fun j => and_congr_right fun hlast => ⟨fun hid => ?_, ?_⟩
  · exact h.ids _ (h.whole_mem (lastClaim?_spec hlast).1) _ hc hid
  · rintro rfl
    rfl

/-- Every mark names the whole number that claims the atom last. -/
theorem exists_owner (h : OnceRefined t ns r m) (hn : n ∈ m.atoms) {p : String}
    (hp : n.marks.partOf = some p) : ∃ w ∈ m.atoms, w.id = p ∧ m.ClaimsLast w n := by
  obtain ⟨a, ha, rfl⟩ := h.mem_atoms_iff.1 hn
  rw [h.marks_partOf ha, Option.map_eq_some_iff] at hp
  obtain ⟨j, hlast, rfl⟩ := hp
  have hmem := h.whole_mem (lastClaim?_spec hlast).1
  exact ⟨r.after j.whole, h.mem_atoms_iff.2 ⟨j.whole, hmem, rfl⟩, rfl,
    (h.claimsLast_iff hmem).2 ⟨j, hlast, rfl⟩⟩

end OnceRefined

/-! ## Nodes that are no atoms -/

variable {m : SurfaceMap α}

/-- Putting atoms back leaves the other nodes as they are. -/
theorem mem_of_mem_restore {changed : List (Node α)}
    (hdrawn : changed.map Node.asDrawn = m.atomsInOrder.map Node.asDrawn) {n : Node α}
    (hn : n ∈ (m.restore changed).nodes) (hatom : n.atom = false) : n ∈ m.nodes := by
  rw [restore, nodes_mapNodes] at hn
  obtain ⟨a, ha, rfl⟩ := List.mem_map.1 hn
  cases hfind : changed.find? (·.number == a.number) with
  | none => exact ha
  | some c =>
    rw [hfind, Option.getD_some] at hatom
    have hc := List.mem_map_of_mem (f := Node.asDrawn) (List.mem_of_find?_eq_some hfind)
    rw [hdrawn] at hc
    obtain ⟨b, hb, heq⟩ := List.mem_map.1 hc
    have hbatom := (List.mem_filter.1 ((sortBy_perm _ m.atoms).mem_iff.1 hb)).2
    have hsame : b.atom = c.atom := (congrArg Node.atom heq :)
    rw [hsame, hatom] at hbatom
    exact absurd hbatom Bool.false_ne_true

/-- What carries a mark in a map that has been refined once is an atom. -/
theorem atom_of_partOf (t : Tolerances α) (container : Address) (layout : Layout α) {n : Node α}
    (hn : n ∈ ((build t container layout).enhance t).nodes) {p : String}
    (hp : n.marks.partOf = some p) : n.atom = true := by
  refine (Bool.eq_false_or_eq_true n.atom).resolve_right fun hatom => ?_
  have hwidened := widenedMap_build t container layout
  rw [enhance_eq_restore] at hn
  have hn := mem_of_mem_restore (map_asDrawn_refined t hwidened.unrefined.distinct) hn hatom
  rw [runPass_widen t (placed_build t container layout), nodes_mapNodes] at hn
  obtain ⟨a, ha, rfl⟩ := List.mem_map.1 hn
  have haatom : a.atom = false := by
    obtain ⟨box, widened, heq⟩ := widenBar_eq t.barExpansion (build t container layout).height a
    rw [heq] at hatom
    split at hatom <;> exact hatom
  rw [haatom, if_neg Bool.false_ne_true, (fresh_build t container layout a ha).1.part] at hp
  exact absurd hp.symm (Option.some_ne_none p)

/-! ## Consistency -/

/-- A numeral that stands on a bar: above or below its middle, and no more than one unit
beyond its ends. -/
structure StandsOn (n b : Node α) : Prop where
  left : b.box.left - ofNat 1 ≤ n.box.left
  right : n.box.right ≤ b.box.right + ofNat 1
  apart : n.box.bottom ≤ b.box.midY ∨ b.box.midY ≤ n.box.top

/-- Whole numbers, bars and parts refer to each other. -/
structure MarksConsistent (gap : α) (m : SurfaceMap α) : Prop where
  /-- An identifier belongs to one atom. -/
  ids : ∀ a ∈ m.atoms, ∀ b ∈ m.atoms, a.id = b.id → a = b
  /-- A whole number names a bar that starts to the right of it and beside it. -/
  bar : ∀ w ∈ m.atoms, w.kind = .mixedNumber → ∃ b ∈ m.atoms, b.kind = .fracBar ∧
    w.marks.bar = some b.id ∧ w.box.right < b.box.left ∧ b.box.left - w.box.right < gap ∧
    b.box.top < w.box.midY ∧ w.box.midY < b.box.bottom
  /-- A part names a whole number. -/
  owner : ∀ n ∈ m.nodes, ∀ p, n.marks.partOf = some p →
    n.atom = true ∧ ∃ w ∈ m.atoms, w.kind = .mixedNumber ∧ w.id = p
  /-- A whole number is no part. -/
  whole : ∀ w ∈ m.atoms, w.kind = .mixedNumber → w.marks.partOf = none
  /-- A bar is a part of the whole number that names it. -/
  partBar : ∀ b ∈ m.atoms, b.kind = .fracBar → ∀ w ∈ m.atoms, b.marks.partOf = some w.id →
    w.marks.bar = some b.id
  /-- A numeral is a part of a whole number on whose bar it stands. -/
  partNumeral : ∀ n ∈ m.atoms, n.kind.isNumeric = true → ∀ w ∈ m.atoms,
    n.marks.partOf = some w.id → ∃ b ∈ m.atoms, w.marks.bar = some b.id ∧ StandsOn n b

theorem standsOn_iff {b n : Node α} : standsOn b n = true ↔ StandsOn n b := by
  rw [standsOn, Bool.and_eq_true, Bool.and_eq_true, Bool.or_eq_true, decide_eq_true_eq,
    decide_eq_true_eq, decide_eq_true_eq, decide_eq_true_eq]
  exact ⟨fun ⟨⟨hleft, hright⟩, hapart⟩ => ⟨hleft, hright, hapart⟩,
    fun h => ⟨⟨h.left, h.right⟩, h.apart⟩⟩

theorem follows_iff {gap : α} {n b : Node α} : follows gap n b = true ↔
    n.box.right < b.box.left ∧ b.box.left - n.box.right < gap ∧ b.box.top < n.box.midY ∧
      n.box.midY < b.box.bottom := by
  simp only [follows, Bool.and_eq_true, decide_eq_true_eq, and_assoc]

namespace OnceRefined

variable {t : Tolerances α} {ns : List (Node α)} {r : Findings α} {a b n w : Node α}

theorem eq_of_number (h : OnceRefined t ns r m) (ha : a ∈ m.atoms) (hb : b ∈ m.atoms)
    (hnumber : a.number = b.number) : a = b :=
  h.placed.eq_of_number (List.mem_filter.1 ha).1 (List.mem_filter.1 hb).1 hnumber

theorem eq_of_id (h : OnceRefined t ns r m) (ha : a ∈ m.atoms) (hb : b ∈ m.atoms)
    (hid : a.id = b.id) : a = b := by
  obtain ⟨c, hc, rfl⟩ := h.mem_atoms_iff.1 ha
  obtain ⟨d, hd, rfl⟩ := h.mem_atoms_iff.1 hb
  rw [h.ids c hc d hd hid]

/-- A whole number has its bar among those after it. -/
theorem exists_bar (h : OnceRefined t ns r m) (hw : w ∈ m.atoms) (hkind : w.kind = .mixedNumber) :
    ∃ b ∈ m.atoms, b.kind = .fracBar ∧ w.marks.bar = some b.id ∧
      follows t.mixedGap w b = true := by
  obtain ⟨a, ha, rfl⟩ := h.mem_atoms_iff.1 hw
  obtain ⟨j, hj⟩ := (h.kind_eq_mixedNumber_iff ha).1 hkind
  have hbar := h.spec.bar j (h.spec.jointOf?_spec ha hj).1
  have hmark : (r.after a).marks.bar = some j.bar.id := by
    rw [h.bar_after ha, hj]
    rfl
  rw [h.joints_eq] at hj
  obtain ⟨-, hfirst⟩ := bar_of_jointOf? h.distinct ha hj
  have hfollows : follows t.mixedGap a j.bar = true := List.find?_some hfirst
  exact ⟨r.after j.bar, h.mem_atoms_iff.2 ⟨j.bar, hbar.1, rfl⟩,
    (h.kind_eq_fracBar_iff hbar.1).2 hbar.2, hmark, hfollows⟩

/-- What a whole number claims is its bar, or a numeral on its bar. -/
theorem bar_or_standsOn (h : OnceRefined t ns r m) (hn : n ∈ m.atoms) (hw : w ∈ m.atoms)
    (hclaim : m.Claims w n) :
    (n.kind = .fracBar ∧ w.marks.bar = some n.id) ∨
      (n.kind.isNumeric = true ∧ ∃ b ∈ m.atoms, w.marks.bar = some b.id ∧ StandsOn n b) := by
  obtain ⟨hkind, b, hb, hbar, hnumber | ⟨hnumeric, hstands⟩⟩ := hclaim
  · obtain rfl := h.eq_of_number hn hb hnumber
    obtain ⟨c, hc, hckind, hcbar, -⟩ := h.exists_bar hw hkind
    obtain rfl := h.eq_of_id hc hn (Option.some.inj (hcbar.symm.trans hbar))
    exact Or.inl ⟨hckind, hbar⟩
  · exact Or.inr ⟨hnumeric, b, hb, hbar, standsOn_iff.1 hstands⟩

theorem partOf_eq_none (h : OnceRefined t ns r m) (hw : w ∈ m.atoms)
    (hkind : w.kind = .mixedNumber) : w.marks.partOf = none := by
  obtain ⟨a, ha, rfl⟩ := h.mem_atoms_iff.1 hw
  obtain ⟨j, hj⟩ := (h.kind_eq_mixedNumber_iff ha).1 hkind
  exact h.partOf_after_of_joined ha hj

end OnceRefined

/-- The marks of a built map are consistent once it has been refined. -/
theorem marksConsistent_enhance (t : Tolerances α) (container : Address) (layout : Layout α) :
    MarksConsistent t.mixedGap ((build t container layout).enhance t) := by
  obtain ⟨ns, r, h⟩ := exists_onceRefined_build t container layout
  refine ⟨fun a ha b hb => h.eq_of_id ha hb, fun w hw hkind => ?_, fun n hn p hp => ?_,
    fun w hw hkind => h.partOf_eq_none hw hkind, fun b hb hkind w hw hpart => ?_,
    fun n hn hnumeric w hw hpart => ?_⟩
  · obtain ⟨b, hb, hbkind, hbar, hfollows⟩ := h.exists_bar hw hkind
    exact ⟨b, hb, hbkind, hbar, follows_iff.1 hfollows⟩
  · have hatom := atom_of_partOf t container layout hn hp
    obtain ⟨w, hw, hid, hlast⟩ := h.exists_owner (List.mem_filter.2 ⟨hn, hatom⟩) hp
    exact ⟨hatom, w, hw, hlast.1.1, hid⟩
  · have hlast := (h.partOf_iff hb hw).1 hpart
    rcases h.bar_or_standsOn hb hw hlast.1 with ⟨-, hbar⟩ | ⟨hnumeric, -⟩
    · exact hbar
    · rw [hkind] at hnumeric
      exact absurd hnumeric Bool.false_ne_true
  · have hlast := (h.partOf_iff hn hw).1 hpart
    rcases h.bar_or_standsOn hn hw hlast.1 with ⟨hkind, -⟩ | ⟨-, hstands⟩
    · rw [hkind] at hnumeric
      exact absurd hnumeric Bool.false_ne_true
    · exact hstands

end SurfaceMap
end FormulaMap

/-
Which numbers the passes join with bars.

The pass over the wholes goes through the atoms in order and changes all of them each time
a number is joined with a bar.  What it decides can be told from the atoms as they were
before (`joints`): a numeral is joined with the bar that follows it unless a number to its
left has claimed it, by being joined with a bar that it stands on.  What becomes of an atom
is then said once (`settled`): a joined number points to its bar, and any other atom to the
last number that claims it.  The two accounts agree (`joinMixed_eq`).
-/
import FormulaMap.Proofs.Surface.Refining

namespace FormulaMap

/-- A whole number with the bar that it is joined with. -/
structure Joint (α : Type) where
  whole : Node α
  bar : Node α

namespace Enhance

variable {α : Type}

/-! ## Joints -/

/-- The joint that a node is the whole number of. -/
def jointOf? (js : List (Joint α)) (n : Node α) : Option (Joint α) :=
  js.find? fun j => j.whole.number == n.number

/-- What becomes of a node: a whole number points to its bar, and any other node to what
it is a part of. -/
def settle (js : List (Joint α)) (part : Option String) (n : Node α) : Node α :=
  { n with
    kind := if (jointOf? js n).isSome then .mixedNumber else n.kind
    marks :=
      { n.marks with
        bar := ((jointOf? js n).map (·.bar.id)).or n.marks.bar
        partOf := if (jointOf? js n).isSome then n.marks.partOf else part } }

/-- The node as a part of another mixed number, or of none. -/
def withPart (part : Option String) (n : Node α) : Node α :=
  { n with marks := { n.marks with partOf := part } }

theorem jointOf?_concat (js : List (Joint α)) (j : Joint α) (n : Node α) :
    jointOf? (js ++ [j]) n =
      (jointOf? js n).or (if j.whole.number == n.number then some j else none) := by
  rw [jointOf?, List.find?_append, List.find?_singleton, jointOf?]

theorem jointOf?_ne {js : List (Joint α)} {j : Joint α} {n : Node α} (hnew : jointOf? js n = none)
    (hne : j.whole.number ≠ n.number) : jointOf? (js ++ [j]) n = none := by
  rw [jointOf?_concat, hnew, beq_false_of_ne hne]
  rfl

/-- What joints are made of: numerals and bars among atoms with numbers of their own. -/
structure Joints (ns : List (Node α)) (js : List (Joint α)) : Prop where
  distinct : (ns.map (·.number)).Nodup
  whole : ∀ j ∈ js, j.whole ∈ ns ∧ j.whole.kind.isNumeric = true
  bar : ∀ j ∈ js, j.bar ∈ ns ∧ j.bar.kind = .fracBar

theorem Joints.jointOf?_spec {ns : List (Node α)} {js : List (Joint α)} (h : Joints ns js)
    {n : Node α} (hn : n ∈ ns) {j : Joint α} (hj : jointOf? js n = some j) :
    j ∈ js ∧ j.whole = n := by
  have hmem := List.mem_of_find?_eq_some hj
  have hnumber := List.find?_some hj
  exact ⟨hmem, List.inj_on_of_nodup_map h.distinct (h.whole j hmem).1 hn (beq_iff_eq.1 hnumber)⟩

/-- A numeral is not the bar of a joint. -/
theorem Joints.number_ne {ns : List (Node α)} {js : List (Joint α)} (h : Joints ns js)
    {n : Node α} (hn : n ∈ ns) (hnumeric : n.kind.isNumeric = true) {j : Joint α} (hj : j ∈ js) :
    n.number ≠ j.bar.number := by
  intro hnumber
  rw [List.inj_on_of_nodup_map h.distinct hn (h.bar j hj).1 hnumber, (h.bar j hj).2] at hnumeric
  exact Bool.false_ne_true hnumeric

variable [Coordinate α]

/-! ## Claims -/

/-- Whether a node is the bar of the joint, or a numeral that stands on it. -/
def claims (j : Joint α) (n : Node α) : Bool :=
  n.number == j.bar.number || (n.kind.isNumeric && standsOn j.bar n)

/-- The last of the joints that claim a node. -/
def lastClaim? (js : List (Joint α)) (n : Node α) : Option (Joint α) :=
  (js.filter fun j => claims j n).getLast?

/-- What a node is marked as a part of. -/
def owner? (js : List (Joint α)) (n : Node α) : Option String :=
  (lastClaim? js n).map (·.whole.id)

def settled (js : List (Joint α)) (n : Node α) : Node α :=
  settle js ((owner? js n).or n.marks.partOf) n

/-- The joint of the next number, after those that have been made: it must be a numeral
that is no part of a mixed number, and have a bar after it. -/
def nextJoint? (gap : α) (bars : List (Node α)) (js : List (Joint α)) (n : Node α) :
    Option (Joint α) :=
  if n.kind.isNumeric && !n.isMixedPart && !js.any (claims · n) then
    (bars.find? (follows gap n)).map (Joint.mk n)
  else none

def jointsAfter (gap : α) (bars : List (Node α)) (js : List (Joint α)) :
    List (Node α) → List (Joint α)
  | [] => js
  | n :: ns => jointsAfter gap bars (js ++ (nextJoint? gap bars js n).toList) ns

/-- The joints of atoms in spatial order. -/
def joints (gap : α) (ns : List (Node α)) : List (Joint α) :=
  jointsAfter gap (ns.filter (·.kind = .fracBar)) [] ns

theorem nextJoint?_eq_some {gap : α} {bars : List (Node α)} {js : List (Joint α)} {n : Node α}
    {j : Joint α} : nextJoint? gap bars js n = some j ↔
      n.kind.isNumeric = true ∧ n.isMixedPart = false ∧ js.any (claims · n) = false ∧
        j.whole = n ∧ bars.find? (follows gap n) = some j.bar := by
  rw [nextJoint?]
  constructor
  · intro h
    split at h
    · next hfree =>
      rw [Bool.and_eq_true, Bool.and_eq_true, Bool.not_eq_true', Bool.not_eq_true'] at hfree
      obtain ⟨b, hb, rfl⟩ := Option.map_eq_some_iff.1 h
      exact ⟨hfree.1.1, hfree.1.2, hfree.2, rfl, hb⟩
    · exact absurd h (Option.some_ne_none j).symm
  · rintro ⟨hnumeric, hpart, hfree, rfl, hbar⟩
    rw [hnumeric, hpart, hfree, hbar]
    rfl

theorem lastClaim?_eq_none {js : List (Joint α)} {n : Node α} :
    lastClaim? js n = none ↔ js.any (claims · n) = false := by
  rw [lastClaim?, List.getLast?_eq_none_iff, List.filter_eq_nil_iff, List.any_eq_false]

theorem lastClaim?_concat (js : List (Joint α)) (j : Joint α) (n : Node α) :
    lastClaim? (js ++ [j]) n = if claims j n then some j else lastClaim? js n := by
  rw [lastClaim?, List.filter_append, List.filter_singleton]
  cases claims j n with
  | true => exact List.getLast?_concat
  | false => exact congrArg List.getLast? (List.append_nil _)

theorem lastClaim?_spec {js : List (Joint α)} {n : Node α} {j : Joint α}
    (h : lastClaim? js n = some j) : j ∈ js ∧ claims j n = true :=
  List.mem_filter.1 (List.mem_of_getLast? h)

theorem settled_of_free {js : List (Joint α)} {n : Node α} (hnew : jointOf? js n = none)
    (hfree : js.any (claims · n) = false) : settled js n = n := by
  rw [settled, owner?, lastClaim?_eq_none.2 hfree, settle, hnew]
  rfl

theorem isMixedPart_settled {js : List (Joint α)} {n : Node α} (hnew : jointOf? js n = none)
    (hids : ∀ j ∈ js, j.whole.id ≠ "") :
    (settled js n).isMixedPart = (n.isMixedPart || js.any (claims · n)) := by
  cases hclaim : lastClaim? js n with
  | none =>
    have hfree := lastClaim?_eq_none.1 hclaim
    rw [settled_of_free hnew hfree, hfree, Bool.or_false]
  | some j =>
    obtain ⟨hmem, hclaims⟩ := lastClaim?_spec hclaim
    have hpart : (settled js n).marks.partOf = some j.whole.id := by
      rw [settled, owner?, hclaim, settle, hnew]
      rfl
    rw [List.any_eq_true.2 ⟨j, hmem, hclaims⟩, Bool.or_true, Node.isMixedPart, Node.mixedOwner?,
      hpart]
    simp [hids j hmem]

/-! ## The pass -/

/-- Changing the settled nodes for one more joint settles the nodes for all of them. -/
theorem joinNode_settled {ns : List (Node α)} {js : List (Joint α)} {j : Joint α}
    (h : Joints ns (js ++ [j])) (hnew : jointOf? js j.whole = none)
    (hfree : js.any (claims · j.whole) = false) {n : Node α} (hn : n ∈ ns) :
    joinNode (settled js j.whole) j.bar (settled js n) = settled (js ++ [j]) n := by
  have hjoint := jointOf?_concat js j n
  have hclaim := lastClaim?_concat js j n
  have hj : j ∈ js ++ [j] := List.mem_append_right js (List.mem_singleton.2 rfl)
  rw [settled_of_free hnew hfree]
  by_cases hwhole : n.number = j.whole.number
  · -- The number that is joined now.
    obtain rfl := List.inj_on_of_nodup_map h.distinct hn (h.whole j hj).1 hwhole
    rw [settled_of_free hnew hfree, joinNode, if_pos rfl, settled, settle, hjoint, hnew,
      Option.none_or, if_pos (beq_self_eq_true _)]
    rfl
  have hother : (j.whole.number == n.number) = false := beq_false_of_ne (Ne.symm hwhole)
  rw [hother, if_neg Bool.false_ne_true, Option.or_none] at hjoint
  rw [joinNode, if_neg (show (settled js n).number ≠ j.whole.number from hwhole)]
  cases hbefore : jointOf? js n with
  | some i =>
    -- A number that has been joined before is no numeral any more, and never was a bar.
    obtain ⟨hi, rfl⟩ := h.jointOf?_spec hn (hjoint.trans hbefore)
    have hbar : (settled js i.whole).number ≠ j.bar.number :=
      h.number_ne hn (h.whole i hi).2 hj
    have hkind : (settled js i.whole).kind = .mixedNumber := by
      rw [settled, settle, hbefore]
      rfl
    rw [if_neg hbar, hkind, if_neg (by simp [Kind.isNumeric]), settled, settled, settle, settle,
      hjoint, hbefore]
    rfl
  | none =>
    have hkind : (settled js n).kind = n.kind := by
      rw [settled, settle, hbefore]
      rfl
    have hlast : settled (js ++ [j]) n =
        if claims j n then withPart (some j.whole.id) (settled js n) else settled js n := by
      rw [settled, settle, hjoint, hbefore, owner?, hclaim, settled, settle, hbefore]
      cases claims j n with
      | true => rfl
      | false => rfl
    rw [hlast, claims, ← hkind]
    show (if n.number = j.bar.number then withPart (some j.whole.id) (settled js n)
      else if (settled js n).kind.isNumeric && standsOn j.bar n then
        withPart (some j.whole.id) (settled js n)
      else settled js n) = _
    by_cases hbar : n.number = j.bar.number
    · rw [if_pos hbar, hbar, beq_self_eq_true, Bool.true_or, if_pos rfl]
    · rw [if_neg hbar, beq_false_of_ne hbar, Bool.false_or]

theorem Joints.next (gap : α) {ns : List (Node α)} {js : List (Joint α)} (h : Joints ns js)
    {n : Node α} (hn : n ∈ ns) :
    Joints ns (js ++ (nextJoint? gap (ns.filter (·.kind = .fracBar)) js n).toList) := by
  cases hnext : nextJoint? gap (ns.filter (·.kind = .fracBar)) js n with
  | none => rwa [Option.toList_none, List.append_nil]
  | some j =>
    obtain ⟨hnumeric, -, -, rfl, hbar⟩ := nextJoint?_eq_some.1 hnext
    obtain ⟨hmem, hkind⟩ := List.mem_filter.1 (List.mem_of_find?_eq_some hbar)
    refine ⟨h.distinct, fun i hi => ?_, fun i hi => ?_⟩ <;>
      rcases List.mem_append.1 hi with hi | hi
    · exact h.whole i hi
    · rw [List.mem_singleton.1 hi]
      exact ⟨hn, hnumeric⟩
    · exact h.bar i hi
    · rw [List.mem_singleton.1 hi]
      exact ⟨hmem, of_decide_eq_true hkind⟩

/-- One step of the pass makes the next joint, if there is one. -/
theorem joinWhole_settled {gap : α} {ns : List (Node α)} {js : List (Joint α)} (h : Joints ns js)
    (hids : ∀ m ∈ ns, m.id ≠ "") {n : Node α} (hn : n ∈ ns) (hnew : jointOf? js n = none) :
    joinWhole gap (ns.filter (·.kind = .fracBar)) (ns.map (settled js)) n.number =
      ns.map (settled (js ++ (nextJoint? gap (ns.filter (·.kind = .fracBar)) js n).toList)) := by
  have hfound : (ns.map (settled js)).find? (·.number == n.number) = some (settled js n) := by
    rw [List.find?_map]
    exact congrArg (Option.map (settled js)) (find?_number h.distinct hn)
  have hkind : (settled js n).kind = n.kind := by
    rw [settled, settle, hnew]
    rfl
  have hpart : (settled js n).isMixedPart = (n.isMixedPart || js.any (claims · n)) :=
    isMixedPart_settled hnew fun j hj => hids j.whole (h.whole j hj).1
  have hfollows : follows gap (settled js n) = follows gap n := rfl
  have hnext := h.next gap hn
  rw [joinWhole, hfound]
  dsimp only
  rw [hkind, hpart, hfollows, Bool.not_or, ← Bool.and_assoc]
  cases hj : nextJoint? gap (ns.filter (·.kind = .fracBar)) js n with
  | some j =>
    obtain ⟨hnumeric, hnopart, hfree, rfl, hbar⟩ := nextJoint?_eq_some.1 hj
    rw [hj] at hnext
    rw [hnumeric, hnopart, hfree, hbar]
    show (ns.map (settled js)).map (joinNode (settled js j.whole) j.bar) = _
    rw [List.map_map]
    exact List.map_congr_left fun m hm => joinNode_settled hnext hnew hfree hm
  | none =>
    rw [Option.toList_none, List.append_nil]
    split
    · next htest =>
      rw [nextJoint?, if_pos htest, Option.map_eq_none_iff] at hj
      rw [hj]
    · rfl

/-- The numbers to come are not joined with the next one. -/
theorem jointOf?_next {gap : α} {bars : List (Node α)} {js : List (Joint α)} {n : Node α}
    {rest : List (Node α)} (hdistinct : ((n :: rest).map (·.number)).Nodup)
    (hnew : ∀ m ∈ n :: rest, jointOf? js m = none) :
    ∀ m ∈ rest, jointOf? (js ++ (nextJoint? gap bars js n).toList) m = none := by
  intro m hm
  have hbefore := hnew m (List.mem_cons_of_mem n hm)
  cases hnext : nextJoint? gap bars js n with
  | none => rwa [Option.toList_none, List.append_nil]
  | some j =>
    obtain ⟨-, -, -, rfl, -⟩ := nextJoint?_eq_some.1 hnext
    refine jointOf?_ne hbefore fun heq => ?_
    rw [List.map_cons, List.nodup_cons] at hdistinct
    exact hdistinct.1 (heq ▸ List.mem_map_of_mem hm)

/-- The pass makes the joints and settles every node once. -/
theorem foldl_joinWhole_settled (gap : α) {ns rest : List (Node α)} {js : List (Joint α)}
    (h : Joints ns js) (hids : ∀ m ∈ ns, m.id ≠ "") (hrest : ∀ m ∈ rest, m ∈ ns)
    (hdistinct : (rest.map (·.number)).Nodup) (hnew : ∀ m ∈ rest, jointOf? js m = none) :
    (rest.map (·.number)).foldl (joinWhole gap (ns.filter (·.kind = .fracBar)))
        (ns.map (settled js)) =
      ns.map (settled (jointsAfter gap (ns.filter (·.kind = .fracBar)) js rest)) := by
  induction rest generalizing js with
  | nil => rfl
  | cons n rest ih =>
    have hn := hrest n List.mem_cons_self
    rw [List.map_cons, List.foldl_cons, joinWhole_settled h hids hn (hnew n List.mem_cons_self),
      jointsAfter]
    exact ih (h.next gap hn) (fun m hm => hrest m (List.mem_cons_of_mem n hm))
      (List.nodup_cons.1 hdistinct).2 (jointOf?_next hdistinct hnew)

/-! ## The joints of the pass -/

theorem joints_spec (gap : α) {ns : List (Node α)} (hdistinct : (ns.map (·.number)).Nodup) :
    Joints ns (joints gap ns) := by
  have hafter : ∀ (rest : List (Node α)) (js : List (Joint α)), (∀ m ∈ rest, m ∈ ns) →
      Joints ns js → Joints ns (jointsAfter gap (ns.filter (·.kind = .fracBar)) js rest) := by
    intro rest
    induction rest with
    | nil => exact fun js _ h => h
    | cons n rest ih =>
      exact fun js hrest h => ih _ (fun m hm => hrest m (List.mem_cons_of_mem n hm))
        (h.next gap (hrest n List.mem_cons_self))
  exact hafter ns [] (fun m hm => hm) ⟨hdistinct, fun j hj => absurd hj List.not_mem_nil,
    fun j hj => absurd hj List.not_mem_nil⟩

theorem subset_jointsAfter (gap : α) (bars : List (Node α)) (js : List (Joint α))
    (rest : List (Node α)) : js ⊆ jointsAfter gap bars js rest := by
  induction rest generalizing js with
  | nil => exact List.Subset.refl js
  | cons n rest ih => exact List.Subset.trans (List.subset_append_left js _) (ih _)

/-- A node that has come and is not joined will not be joined. -/
theorem jointOf?_jointsAfter {gap : α} {bars : List (Node α)} {js : List (Joint α)}
    {rest : List (Node α)} {n : Node α} (hn : ∀ m ∈ rest, m.number ≠ n.number) :
    jointOf? (jointsAfter gap bars js rest) n = jointOf? js n := by
  induction rest generalizing js with
  | nil => rfl
  | cons m rest ih =>
    rw [jointsAfter, ih fun k hk => hn k (List.mem_cons_of_mem m hk)]
    cases hnext : nextJoint? gap bars js m with
    | none => rw [Option.toList_none, List.append_nil]
    | some j =>
      obtain ⟨-, -, -, rfl, -⟩ := nextJoint?_eq_some.1 hnext
      rw [Option.toList_some, jointOf?_concat, beq_false_of_ne (hn _ List.mem_cons_self),
        if_neg Bool.false_ne_true, Option.or_none]

/-- A node is joined when it comes, or not at all. -/
theorem jointOf?_jointsAfter_cons {gap : α} {bars : List (Node α)} {js : List (Joint α)}
    {rest : List (Node α)} {n : Node α} (hdistinct : ((n :: rest).map (·.number)).Nodup)
    (hnew : jointOf? js n = none) :
    jointOf? (jointsAfter gap bars js (n :: rest)) n = nextJoint? gap bars js n := by
  rw [List.map_cons, List.nodup_cons] at hdistinct
  rw [jointsAfter, jointOf?_jointsAfter fun m hm heq => hdistinct.1 (heq ▸ List.mem_map_of_mem hm)]
  cases hnext : nextJoint? gap bars js n with
  | none => rwa [Option.toList_none, List.append_nil]
  | some j =>
    obtain ⟨-, -, -, rfl, -⟩ := nextJoint?_eq_some.1 hnext
    rw [Option.toList_some, jointOf?_concat, hnew, beq_self_eq_true, if_pos rfl, Option.none_or]

/-- Every number is joined once, and in order. -/
theorem whole_joints_sublist (gap : α) (ns : List (Node α)) :
    ((joints gap ns).map (·.whole)).Sublist ns := by
  have hafter : ∀ (bars rest : List (Node α)) (js : List (Joint α)),
      ((jointsAfter gap bars js rest).map (·.whole)).Sublist (js.map (·.whole) ++ rest) := by
    intro bars rest
    induction rest with
    | nil =>
      intro js
      rw [jointsAfter, List.append_nil]
    | cons n rest ih =>
      intro js
      refine (ih _).trans ?_
      rw [List.map_append, List.append_assoc]
      refine (List.Sublist.refl _).append ?_
      cases hnext : nextJoint? gap bars js n with
      | none => exact List.sublist_cons_self n rest
      | some j =>
        obtain ⟨-, -, -, rfl, -⟩ := nextJoint?_eq_some.1 hnext
        exact List.Sublist.refl _
  exact hafter _ ns []

theorem jointOf?_whole {gap : α} {ns : List (Node α)} (hdistinct : (ns.map (·.number)).Nodup)
    {j : Joint α} (hj : j ∈ joints gap ns) : jointOf? (joints gap ns) j.whole = some j := by
  have hnumbers : ((joints gap ns).map fun i => i.whole.number).Nodup := by
    have hsublist := (whole_joints_sublist gap ns).map (·.number)
    rw [List.map_map] at hsublist
    exact hsublist.nodup hdistinct
  have hfound : (jointOf? (joints gap ns) j.whole).isSome = true :=
    List.find?_isSome.2 ⟨j, hj, beq_self_eq_true j.whole.number⟩
  obtain ⟨i, hi⟩ := Option.isSome_iff_exists.1 hfound
  have hnumber := List.find?_some hi
  rw [hi, List.inj_on_of_nodup_map hnumbers (List.mem_of_find?_eq_some hi) hj
    (beq_iff_eq.1 hnumber)]

theorem joinMixed_eq (gap : α) {ns : List (Node α)} (hdistinct : (ns.map (·.number)).Nodup)
    (hids : ∀ m ∈ ns, m.id ≠ "") : joinMixed gap ns = ns.map (settled (joints gap ns)) := by
  have hempty : Joints ns [] :=
    ⟨hdistinct, fun j hj => absurd hj List.not_mem_nil, fun j hj => absurd hj List.not_mem_nil⟩
  have hstart : ns.map (settled []) = ns :=
    (List.map_congr_left fun n _ => settled_of_free (n := n) rfl rfl).trans (List.map_id ns)
  have hfold := foldl_joinWhole_settled gap hempty hids (fun m hm => hm) hdistinct
    fun m _ => rfl
  rwa [hstart] at hfold

end Enhance
end FormulaMap

/-
The numbers of operators.

An operator and the atoms of its kind above it are one operator, known by the outermost of
them, its top (`IsTop`).  The pass that numbers operators looks for any atom of the kind
that is related and has been numbered before.  In a map where nothing reaches out of an
ancestor at its upper left corner, ancestors come first in spatial order; so what has been
numbered is a list in which none stands above one before it (`Lined`), the atom that is
found stands above the operator, and those above it all have the slot of their top.  This is
the invariant of the pass (`Numbered`): the slots of the tops count up, and slots are handed
down.  At the end the numbers are those of the tops from left to right
(`slots_number_tops`).  An atom without a corner breaks the order of all: an operator may then
be numbered before what stands above it, as in `misplacedSums`.
-/
import FormulaMap.Proofs.Surface.Ancestors
import FormulaMap.Proofs.Surface.Predecessors
import FormulaMap.Proofs.Surface.Recovering

namespace FormulaMap

variable {α : Type}

namespace Enhance

/-! ## Lists of atoms -/

/-- Whether none of these nodes is of the kind of a node and above it. -/
def isOutermost (ns : List (Node α)) (n : Node α) : Bool :=
  ns.all fun x => !(decide (x.kind = n.kind) && x.isAbove n)

def outermost (ns : List (Node α)) : List (Node α) := ns.filter (isOutermost ns)

/-- No node stands above itself or one before it, and of two nodes above a third one is above
the other. -/
structure Lined (ns : List (Node α)) : Prop where
  forward : ns.Pairwise fun a b => b.isAbove a = false
  irrefl : ∀ n ∈ ns, n.isAbove n = false
  comparable : ∀ a ∈ ns, ∀ b ∈ ns, ∀ c ∈ ns, a.isAbove c = true → b.isAbove c = true →
    a = b ∨ a.isAbove b = true ∨ b.isAbove a = true

/-- The outermost of these operators are numbered one after another, and slots are handed
down from above. -/
structure Numbered (done : List (Node α)) (next : Nat) : Prop where
  counted : (outermost done).map (·.slot) = (List.range next).map some
  shared : ∀ a ∈ done, ∀ b ∈ done, a.kind = b.kind → a.isAbove b = true → a.slot = b.slot
  slotted : ∀ n ∈ done, n.slot.isSome = true

theorem isOutermost_iff {ns : List (Node α)} {n : Node α} :
    isOutermost ns n = true ↔ ∀ x ∈ ns, x.kind = n.kind → x.isAbove n = false := by
  simp [isOutermost, imp_iff_not_or]

theorem isOutermost_append {ns : List (Node α)} {n x : Node α} (h : n.isAbove x = false) :
    isOutermost (ns ++ [n]) x = isOutermost ns x := by
  simp [isOutermost, h]

theorem Lined.sublist {ns ns' : List (Node α)} (h : Lined ns) (hsub : ns'.Sublist ns) :
    Lined ns' where
  forward := h.forward.sublist hsub
  irrefl n hn := h.irrefl n (hsub.subset hn)
  comparable a ha b hb c hc := h.comparable a (hsub.subset ha) b (hsub.subset hb) c (hsub.subset hc)

section
variable {done : List (Node α)} {next : Nat} {n : Node α}

theorem Lined.not_isAbove (h : Lined (done ++ [n])) {x : Node α} (hx : x ∈ done ++ [n]) :
    n.isAbove x = false := by
  rcases List.mem_append.1 hx with hx | hx
  · exact (List.pairwise_append.1 h.forward).2.2 x hx n List.mem_cons_self
  · rw [List.mem_singleton.1 hx]
    exact h.irrefl n (by simp)

theorem Lined.mem_of_isAbove (h : Lined (done ++ [n])) {a b : Node α} (ha : a ∈ done ++ [n])
    (hb : b ∈ done ++ [n]) (hab : a.isAbove b = true) : a ∈ done := by
  refine (List.mem_append.1 ha).resolve_right fun hlast => ?_
  rw [List.mem_singleton.1 hlast, h.not_isAbove hb] at hab
  exact Bool.false_ne_true hab

/-- A node at the end of the line is above none before it, so these stay as they are. -/
theorem outermost_append (h : Lined (done ++ [n])) :
    outermost (done ++ [n]) = outermost done ++ if isOutermost done n then [n] else [] := by
  have hsame : ∀ x ∈ done ++ [n], isOutermost (done ++ [n]) x = isOutermost done x :=
    fun x hx => isOutermost_append (h.not_isAbove hx)
  rw [outermost, List.filter_congr hsame, List.filter_append, outermost]
  congr 1
  by_cases hn : isOutermost done n = true
  · rw [if_pos hn, List.filter_cons_of_pos hn, List.filter_nil]
  · rw [if_neg hn, List.filter_cons_of_neg hn, List.filter_nil]

/-! ## One operator -/

/-- A slot is shared with an operator of the kind that stands above. -/
theorem exists_of_sharedSlot? (hlined : Lined (done ++ [n])) {s : Nat}
    (hs : sharedSlot? done n = some s) :
    ∃ x ∈ done, x.kind = n.kind ∧ x.isAbove n = true ∧ x.slot = some s := by
  obtain ⟨x, hfound, hslot⟩ := Option.bind_eq_some_iff.1 hs
  have htest := List.find?_some hfound
  have hx := List.mem_of_find?_eq_some hfound
  rw [Bool.and_eq_true, decide_eq_true_eq, Node.related, hlined.not_isAbove
    (List.mem_append_left _ hx), Bool.false_or] at htest
  exact ⟨x, hx, htest.1, htest.2, hslot⟩

/-- An operator that shares no slot is an outermost one. -/
theorem Numbered.isOutermost_of_sharedSlot? (h : Numbered done next)
    (hs : sharedSlot? done n = none) : isOutermost done n = true := by
  refine isOutermost_iff.2 fun x hx hkind => Bool.eq_false_iff.2 fun habove => ?_
  have hfound : (done.find? fun other => decide (other.kind = n.kind) && n.related other).isSome =
      true := List.find?_isSome.2 ⟨x, hx, by simp [hkind, Node.related, habove]⟩
  obtain ⟨y, hy⟩ := Option.isSome_iff_exists.1 hfound
  rw [sharedSlot?, hy, Option.bind_some] at hs
  have hslot := h.slotted y (List.mem_of_find?_eq_some hy)
  rw [hs] at hslot
  exact Bool.false_ne_true hslot

/-- An operator has been numbered with those before it when the tops are counted and it shares
its slot with what stands above it. -/
theorem Numbered.append (h : Numbered done next) (hlined : Lined (done ++ [n])) {next' : Nat}
    (hcounted : (outermost (done ++ [n])).map (·.slot) = (List.range next').map some)
    (hshared : ∀ a ∈ done, a.kind = n.kind → a.isAbove n = true → a.slot = n.slot)
    (hslotted : n.slot.isSome = true) : Numbered (done ++ [n]) next' := by
  refine ⟨hcounted, fun a ha b hb hab haboveb => ?_, fun a ha => ?_⟩
  · have hadone := hlined.mem_of_isAbove ha hb haboveb
    rcases List.mem_append.1 hb with hb | hb
    · exact h.shared a hadone b hb hab haboveb
    · obtain rfl := List.mem_singleton.1 hb
      exact hshared a hadone hab haboveb
  · rcases List.mem_append.1 ha with ha | ha
    · exact h.slotted a ha
    · rw [List.mem_singleton.1 ha]
      exact hslotted

theorem Numbered.append_shared (h : Numbered done next) (hlined : Lined (done ++ [n])) {s : Nat}
    (hs : sharedSlot? done n = some s) (hn : n.slot = some s) : Numbered (done ++ [n]) next := by
  obtain ⟨x, hx, hkind, habove, hslot⟩ := exists_of_sharedSlot? hlined hs
  have hinner : ¬isOutermost done n = true := by
    intro houter
    rw [isOutermost_iff.1 houter x hx hkind] at habove
    exact Bool.false_ne_true habove
  refine h.append hlined ?_ (fun a ha hakind ha' => ?_) (by rw [hn]; rfl)
  · rw [outermost_append hlined, if_neg hinner, List.append_nil]
    exact h.counted
  · -- what stands above the new operator stands in line with the one that was found
    have hpast : ∀ y ∈ done, y ∈ done ++ [n] := fun y => List.mem_append_left _
    rw [hn, ← hslot]
    rcases hlined.comparable a (hpast a ha) x (hpast x hx) n (by simp) ha' habove with
      rfl | hax | hxa
    · rfl
    · exact h.shared a ha x hx (hakind.trans hkind.symm) hax
    · exact (h.shared x hx a ha (hkind.trans hakind.symm) hxa).symm

theorem Numbered.append_fresh (h : Numbered done next) (hlined : Lined (done ++ [n]))
    (hs : sharedSlot? done n = none) (hn : n.slot = some next) :
    Numbered (done ++ [n]) (next + 1) := by
  have houter := h.isOutermost_of_sharedSlot? hs
  refine h.append hlined ?_ (fun a ha hkind habove => ?_) (by rw [hn]; rfl)
  · rw [outermost_append hlined, if_pos houter, List.map_append, h.counted, List.range_succ,
      List.map_append, List.map_singleton, List.map_singleton, hn]
  · rw [isOutermost_iff.1 houter a ha hkind] at habove
    exact absurd habove Bool.false_ne_true

/-! ## The pass -/

/-- Atoms that the pass leaves alone are numbered. -/
theorem Numbered.exists_of_numberAfter {ns : List (Node α)} (h : Numbered done next)
    (hfixed : numberAfter done next ns = ns)
    (hlined : Lined (done ++ ns.filter (·.kind.hasSlot))) :
    ∃ last, Numbered (done ++ ns.filter (·.kind.hasSlot)) last := by
  induction ns generalizing done next with
  | nil =>
    rw [List.filter_nil, List.append_nil]
    exact ⟨next, h⟩
  | cons n ns ih =>
    rw [numberAfter] at hfixed
    by_cases hkind : n.kind.hasSlot = true
    · rw [if_pos hkind] at hfixed
      rw [List.filter_cons_of_pos (p := fun n : Node α => n.kind.hasSlot) hkind,
        List.append_cons] at hlined ⊢
      have hfirst : Lined (done ++ [n]) := hlined.sublist (List.sublist_append_left _ _)
      cases hs : sharedSlot? done n with
      | some s =>
        rw [hs] at hfixed
        obtain ⟨hn, hrest⟩ := List.cons.inj hfixed
        rw [hn] at hrest
        exact ih (h.append_shared hfirst hs (congrArg Node.slot hn).symm) hrest hlined
      | none =>
        rw [hs] at hfixed
        obtain ⟨hn, hrest⟩ := List.cons.inj hfixed
        rw [hn] at hrest
        exact ih (h.append_fresh hfirst hs (congrArg Node.slot hn).symm) hrest hlined
    · rw [if_neg hkind] at hfixed
      rw [List.filter_cons_of_neg (p := fun n : Node α => n.kind.hasSlot) hkind] at hlined ⊢
      exact ih h (List.cons.inj hfixed).2 hlined

theorem numbered_nil : Numbered ([] : List (Node α)) 0 :=
  ⟨rfl, fun _ ha => absurd ha List.not_mem_nil, fun _ ha => absurd ha List.not_mem_nil⟩

/-! ## Numbered operators -/

theorem Numbered.length_outermost (h : Numbered done next) : (outermost done).length = next := by
  have hlength := congrArg List.length h.counted
  rwa [List.length_map, List.length_map, List.length_range] at hlength

theorem Numbered.eq_of_slot (h : Numbered done next) {a b : Node α} (ha : a ∈ outermost done)
    (hb : b ∈ outermost done) (hslot : a.slot = b.slot) : a = b := by
  refine List.inj_on_of_nodup_map (f := fun n : Node α => n.slot) ?_ ha hb hslot
  rw [h.counted]
  exact List.nodup_range.map (Option.some_injective Nat)

theorem Numbered.exists_slot_iff (h : Numbered done next) {i : Nat} :
    (∃ n ∈ outermost done, n.slot = some i) ↔ i < next := by
  have hmem : some i ∈ (outermost done).map (·.slot) ↔ i < next := by
    rw [h.counted, List.mem_map_of_injective (Option.some_injective Nat), List.mem_range]
  rw [← hmem, List.mem_map]

theorem Numbered.lt_of_sublist (h : Numbered done next) {a b : Node α}
    (hab : [a, b].Sublist (outermost done)) {i j : Nat} (ha : a.slot = some i)
    (hb : b.slot = some j) : i < j := by
  have hslots : ((List.range next).map some).Pairwise fun s s' =>
      ∀ i j, s = some i → s' = some j → i < j := by
    refine List.pairwise_map.2 (List.pairwise_lt_range.imp fun hlt i j hi hj => ?_)
    rwa [← Option.some.inj hi, ← Option.some.inj hj]
  rw [← h.counted, List.pairwise_map] at hslots
  exact List.pairwise_iff_forall_sublist.1 hslots hab i j ha hb

theorem Numbered.lt_iff (h : Numbered done next) {a b : Node α} (ha : a ∈ outermost done)
    (hb : b ∈ outermost done) {i j : Nat} (hi : a.slot = some i) (hj : b.slot = some j) :
    i < j ↔ [a, b].Sublist (outermost done) := by
  refine ⟨fun hlt => ?_, fun hab => h.lt_of_sublist hab hi hj⟩
  have hne : a ≠ b := by
    rintro rfl
    rw [hi, Option.some.injEq] at hj
    omega
  refine (pair_sublist_or ha hb hne).resolve_right fun hba => ?_
  have hgt := h.lt_of_sublist hba hj hi
  omega

end

/-! ## Atoms of other kinds -/

theorem mem_of_mem_numberAfter {done : List (Node α)} {next : Nat} {ns : List (Node α)}
    {n : Node α} (hn : n ∈ numberAfter done next ns) (hkind : n.kind.hasSlot = false) : n ∈ ns := by
  have hwritten : ∀ (a : Node α) (s : Nat), a.kind.hasSlot = true →
      n ≠ { a with slot := some s } := by
    rintro a s ha rfl
    rw [hkind] at ha
    exact Bool.false_ne_true ha
  induction ns generalizing done next with
  | nil => exact hn
  | cons a ns ih =>
    rw [numberAfter] at hn
    by_cases ha : a.kind.hasSlot = true
    · rw [if_pos ha] at hn
      cases hs : sharedSlot? done a with
      | some s =>
        rw [hs] at hn
        exact List.mem_cons_of_mem a (ih ((List.mem_cons.1 hn).resolve_left (hwritten a s ha)))
      | none =>
        rw [hs] at hn
        exact List.mem_cons_of_mem a (ih ((List.mem_cons.1 hn).resolve_left (hwritten a next ha)))
    · rw [if_neg ha] at hn
      rcases List.mem_cons.1 hn with rfl | hn
      · exact List.mem_cons_self
      · exact List.mem_cons_of_mem a (ih hn)

variable [Coordinate α]

theorem slot_joinNode (whole bar n : Node α) : (joinNode whole bar n).slot = n.slot := by
  unfold joinNode
  split
  · rfl
  · split
    · rfl
    · split <;> rfl

theorem map_slot_joinWhole (gap : α) (bars state : List (Node α)) (number : Nat) :
    (joinWhole gap bars state number).map (·.slot) = state.map (·.slot) := by
  unfold joinWhole
  split
  · rfl
  · split
    · split
      · rfl
      · rw [List.map_map]
        exact List.map_congr_left fun n _ => slot_joinNode _ _ n
    · rfl

theorem map_slot_joinMixed (gap : α) (ns : List (Node α)) :
    (joinMixed gap ns).map (·.slot) = ns.map (·.slot) := by
  have hfold : ∀ (bars : List (Node α)) (numbers : List Nat) (state : List (Node α)),
      (numbers.foldl (joinWhole gap bars) state).map (·.slot) = state.map (·.slot) := by
    intro bars numbers
    induction numbers with
    | nil => exact fun _ => rfl
    | cons k ks ih => exact fun state => (ih _).trans (map_slot_joinWhole gap bars state k)
  exact hfold _ _ ns

/-- The passes give no slot to what is no operator. -/
theorem slot_of_mem_refined (t : Tolerances α) {ns : List (Node α)}
    (hns : ∀ n ∈ ns, n.slot = none) {n : Node α} (hn : n ∈ refined t ns)
    (hkind : n.kind.hasSlot = false) : n.slot = none := by
  have hjoined := List.mem_map_of_mem (f := fun n : Node α => n.slot)
    (mem_of_mem_numberAfter hn hkind)
  rw [map_slot_joinMixed] at hjoined
  obtain ⟨b, hb, hslot⟩ := List.mem_map.1 hjoined
  obtain ⟨a, ha, -, -, heq⟩ := exists_of_mem_resolveMinus hb
  have hsame : b.slot = a.slot := by rw [heq]
  rw [← hslot, hsame]
  exact hns a ha

end Enhance

namespace SurfaceMap

open Enhance

/-! ## Tops -/

/-- The outermost of a node and of the atoms of its kind above it. -/
structure IsTop (m : SurfaceMap α) (x a : Node α) : Prop where
  mem : x ∈ m.atoms
  kind : x.kind = a.kind
  encloses : x = a ∨ x.isAbove a = true
  outermost : ∀ y ∈ m.atoms, y.kind = a.kind → y.isAbove a = true → y = x ∨ x.isAbove y = true

-- whether `x` is an atom is asked by equality of nodes alone
instance [DecidableEq α] (m : SurfaceMap α) (x a : Node α) : Decidable (m.IsTop x a) :=
  decidable_of_iff ((∃ y ∈ m.atoms, y = x) ∧ x.kind = a.kind ∧ (x = a ∨ x.isAbove a = true) ∧
      ∀ y ∈ m.atoms, y.kind = a.kind → y.isAbove a = true → y = x ∨ x.isAbove y = true)
    ⟨fun ⟨⟨_, hmem, he⟩, hkind, hencloses, houtermost⟩ =>
        ⟨he ▸ hmem, hkind, hencloses, houtermost⟩,
      fun ⟨hmem, hkind, hencloses, houtermost⟩ =>
        ⟨⟨x, hmem, rfl⟩, hkind, hencloses, houtermost⟩⟩

section
variable {m : SurfaceMap α} {a x y : Node α}

/-- Nothing of the kind stands above a top. -/
theorem IsTop.not_isAbove (h : Ancestral m) (ha : a ∈ m.atoms) (hx : m.IsTop x a)
    (hy : y ∈ m.atoms) (hkind : y.kind = a.kind) : y.isAbove x = false := by
  refine Bool.eq_false_iff.2 fun hyx => ?_
  have hnode := mem_nodes_of_mem_atoms hx.mem
  have hya : y.isAbove a = true := by
    rcases hx.encloses with rfl | hxa
    · exact hyx
    · exact h.trans hnode (mem_nodes_of_mem_atoms ha) hyx hxa
  rcases hx.outermost y hy hkind hya with rfl | hxy
  · rw [h.not_isAbove_self hnode] at hyx
    exact Bool.false_ne_true hyx
  · rw [h.asymm (mem_nodes_of_mem_atoms hy) hnode hyx] at hxy
    exact Bool.false_ne_true hxy

theorem IsTop.unique (h : Ancestral m) (ha : a ∈ m.atoms) (hx : m.IsTop x a)
    (hy : m.IsTop y a) : x = y := by
  have hxy : x.isAbove y ≠ true := Bool.eq_false_iff.1 (hy.not_isAbove h ha hx.mem hx.kind)
  rcases hy.encloses with rfl | hya
  · exact hx.encloses.resolve_right hxy
  · exact ((hx.outermost y hy.mem hy.kind hya).resolve_right hxy).symm

/-- A node has the top of what is above it and of its kind. -/
theorem IsTop.of_isAbove (h : Ancestral m) (ha : a ∈ m.atoms) (hy : y ∈ m.atoms)
    (hkind : y.kind = a.kind) (hya : y.isAbove a = true) (hx : m.IsTop x y) : m.IsTop x a := by
  have hnode : ∀ n ∈ m.atoms, n ∈ m.nodes := fun n => mem_nodes_of_mem_atoms
  refine ⟨hx.mem, hx.kind.trans hkind, ?_, fun z hz hzkind hza => ?_⟩
  · rcases hx.encloses with rfl | hxy
    · exact Or.inr hya
    · exact Or.inr (h.trans (hnode y hy) (hnode a ha) hxy hya)
  · rcases h.comparable (hnode z hz) (hnode y hy) (hnode a ha) hza hya with rfl | hzy | hyz
    · exact hx.encloses.imp_left Eq.symm
    · exact hx.outermost z hz (hzkind.trans hkind.symm) hzy
    · rcases hx.encloses with rfl | hxy
      · exact Or.inr hyz
      · exact Or.inr (h.trans (hnode y hy) (hnode z hz) hxy hyz)

theorem Ancestral.exists_isTop (h : Ancestral m) (ha : a ∈ m.atoms) : ∃ x, m.IsTop x a := by
  induction hk : a.number using Nat.strong_induction_on generalizing a with
  | _ k ih =>
    by_cases habove : ∃ y ∈ m.atoms, y.kind = a.kind ∧ y.isAbove a = true
    · obtain ⟨y, hy, hkind, hya⟩ := habove
      have hlt := h.number_lt (mem_nodes_of_mem_atoms ha) hya
      obtain ⟨x, hx⟩ := ih y.number (hk ▸ hlt) hy rfl
      exact ⟨x, hx.of_isAbove h ha hy hkind hya⟩
    · exact ⟨a, ha, rfl, Or.inl rfl, fun y hy hkind hya => absurd ⟨y, hy, hkind, hya⟩ habove⟩

/-- A top is its own top. -/
theorem IsTop.self (h : Ancestral m) (ha : a ∈ m.atoms) (hx : m.IsTop x a) : m.IsTop x x := by
  obtain ⟨y, hy⟩ := h.exists_isTop hx.mem
  rcases hx.encloses with rfl | hxa
  · exact hx
  · obtain rfl := hx.unique h ha (hy.of_isAbove h ha hx.mem hx.kind hxa)
    exact hy

end

/-! ## Spatial order -/

section
variable [Coordinate α]

/-- Further to the left, or as far and higher up, or at the same corner and earlier in
preorder. -/
def Precedes (m : SurfaceMap α) (a b : Node α) : Prop :=
  a.box.left < b.box.left ∨ Coordinate.same a.box.left b.box.left = true ∧
    (a.box.top < b.box.top ∨
      Coordinate.same a.box.top b.box.top = true ∧ [a, b].Sublist m.atoms)

/-- No atom has its left or its top edge before that of an atom above it. -/
def Nested (m : SurfaceMap α) : Prop :=
  ∀ a ∈ m.atoms, ∀ b ∈ m.atoms, a.isAbove b = true →
    ¬b.box.left < a.box.left ∧ ¬b.box.top < a.box.top

instance (m : SurfaceMap α) : Decidable m.Nested :=
  inferInstanceAs (Decidable (∀ a ∈ m.atoms, ∀ b ∈ m.atoms, a.isAbove b = true → _))

theorem mem_atomsInOrder_iff {m : SurfaceMap α} {n : Node α} :
    n ∈ m.atomsInOrder ↔ n ∈ m.atoms :=
  (sortBy_perm _ m.atoms).mem_iff

end

section
variable [Coordinate α] [Orders α] {m : SurfaceMap α} {a b : Node α}

theorem Precedes.asymm (hnodup : m.atoms.Nodup) (h : m.Precedes a b) : ¬m.Precedes b a := by
  rcases h with hleft | ⟨hleft, hrest⟩ <;> rintro (hleft' | ⟨hleft', hrest'⟩)
  · exact Compares.irrefl _ (Compares.lt_trans hleft hleft')
  · exact Compares.not_lt_of_le (Coordinate.same_iff.1 hleft').1 hleft
  · exact Compares.not_lt_of_le (Coordinate.same_iff.1 hleft).1 hleft'
  · rcases hrest with htop | ⟨htop, hpair⟩ <;> rcases hrest' with htop' | ⟨htop', hpair'⟩
    · exact Compares.irrefl _ (Compares.lt_trans htop htop')
    · exact Compares.not_lt_of_le (Coordinate.same_iff.1 htop').1 htop
    · exact Compares.not_lt_of_le (Coordinate.same_iff.1 htop).1 htop'
    · exact not_pair_sublist hnodup hpair hpair'

/-- What comes before in both coordinates precedes, if it does so in preorder too. -/
theorem precedes_of_le (hleft : a.box.left ≤ b.box.left)
    (htop : b.box.left ≤ a.box.left → a.box.top ≤ b.box.top) (hpair : [a, b].Sublist m.atoms) :
    m.Precedes a b := by
  rcases Coordinate.lt_or_same hleft with hlt | hsame
  · exact Or.inl hlt
  · rcases Coordinate.lt_or_same (htop (Coordinate.same_iff.1 hsame).2) with hlt | hsame'
    · exact Or.inr ⟨hsame, Or.inl hlt⟩
    · exact Or.inr ⟨hsame, Or.inr ⟨hsame', hpair⟩⟩

theorem precedes_of_sublist (hlocated : m.Located) (hnodup : m.atoms.Nodup)
    (h : [a, b].Sublist m.atomsInOrder) : m.Precedes a b := by
  have hties : m.atoms.Pairwise fun a b => [a, b].Sublist m.atoms :=
    List.pairwise_iff_forall_sublist.2 fun hab => hab
  rcases List.pairwise_iff_forall_sublist.1
    (pairwise_sortBy_of_mem hlocated.ranks hnodup hties) h with hbefore | hpair
  · rcases Coordinate.before_iff.1 hbefore with hleft | ⟨hleft, htop⟩
    · exact Or.inl hleft
    · exact Or.inr ⟨hleft, Or.inl htop⟩
  · have ha := hlocated a (hpair.subset (by simp))
    have hb := hlocated b (hpair.subset (by simp))
    have hascends := List.pairwise_iff_forall_sublist.1 (ascends_sortBy_of_mem hlocated.ranks) h
    obtain ⟨hleft, htop⟩ := (Coordinate.before_eq_false_iff hb ha).1 hascends
    exact precedes_of_le hleft htop hpair

/-- The sort puts the atoms in spatial order, and so any atoms that are taken from it. -/
theorem precedes_iff (hlocated : m.Located) (hnodup : m.atoms.Nodup) {ns : List (Node α)}
    (hns : ns.Sublist m.atomsInOrder) (ha : a ∈ ns) (hb : b ∈ ns) :
    m.Precedes a b ↔ [a, b].Sublist ns := by
  refine ⟨fun hab => ?_, fun hab => precedes_of_sublist hlocated hnodup (hab.trans hns)⟩
  have hne : a ≠ b := by
    rintro rfl
    exact hab.asymm hnodup hab
  refine (pair_sublist_or ha hb hne).resolve_right fun hba => ?_
  exact hab.asymm hnodup (precedes_of_sublist hlocated hnodup (hba.trans hns))

/-- In a nested map ancestors come first. -/
theorem Nested.precedes (hnested : m.Nested) (hlocated : m.Located) (h : Ancestral m)
    (ha : a ∈ m.atoms) (hb : b ∈ m.atoms) (hab : a.isAbove b = true) : m.Precedes a b := by
  obtain ⟨hleft, htop⟩ := hnested a ha b hb hab
  rw [Coordinate.not_lt_iff (hlocated b hb).1 (hlocated a ha).1] at hleft
  rw [Coordinate.not_lt_iff (hlocated b hb).2 (hlocated a ha).2] at htop
  exact precedes_of_le hleft (fun _ => htop) (h.pair_sublist_atoms ha hb hab)

theorem Nested.lined (hnested : m.Nested) (hlocated : m.Located) (h : Ancestral m) :
    Lined m.atomsInOrder := by
  have hnodup := h.nodup_atoms
  have hatom : ∀ n ∈ m.atomsInOrder, n ∈ m.atoms := fun n => mem_atomsInOrder_iff.1
  have hnode : ∀ n ∈ m.atomsInOrder, n ∈ m.nodes := fun n hn => mem_nodes_of_mem_atoms (hatom n hn)
  refine ⟨?_, fun n hn => h.not_isAbove_self (hnode n hn), fun a ha b hb c hc =>
    h.comparable (hnode a ha) (hnode b hb) (hnode c hc)⟩
  refine List.pairwise_iff_forall_sublist.2 fun {a b} hab => Bool.eq_false_iff.2 fun habove => ?_
  have ha := hatom a (hab.subset (by simp))
  have hb := hatom b (hab.subset (by simp))
  have hturned := hnested.precedes hlocated h hb ha habove
  exact (precedes_of_sublist hlocated hnodup hab).asymm hnodup hturned

end

/-! ## Refined maps -/

/-- Operators are numbered by their tops, from left to right. -/
structure SlotsNumberTops [Coordinate α] (m : SurfaceMap α) (tops : List (Node α)) : Prop where
  top : ∀ a ∈ m.atoms, ∃! x, m.IsTop x a
  mem_tops : ∀ x, x ∈ tops ↔ ∃ a ∈ m.atoms, a.kind.hasSlot = true ∧ m.IsTop x a
  nodup : tops.Nodup
  slotted : ∀ a ∈ m.atoms, a.slot.isSome = a.kind.hasSlot
  /-- Operators share a slot if and only if they have the same top. -/
  share : ∀ a ∈ m.atoms, ∀ b ∈ m.atoms, a.kind.hasSlot = true → b.kind.hasSlot = true →
    ∀ x y, m.IsTop x a → m.IsTop y b → (a.slot = b.slot ↔ x = y)
  /-- The slots are the numbers below that of tops. -/
  used : ∀ i, (∃ a ∈ m.atoms, a.slot = some i) ↔ i < tops.length
  /-- They go with the spatial order of tops. -/
  ordered : ∀ a ∈ m.atoms, ∀ b ∈ m.atoms, ∀ i j, a.slot = some i → b.slot = some j →
    ∀ x y, m.IsTop x a → m.IsTop y b → (i < j ↔ m.Precedes x y)

section
variable [Coordinate α] {m : SurfaceMap α} {a x : Node α} {last : Nat}

/-- The operators of a map, from left to right. -/
def operators (m : SurfaceMap α) : List (Node α) :=
  m.atomsInOrder.filter (·.kind.hasSlot)

theorem mem_operators : a ∈ m.operators ↔ a ∈ m.atoms ∧ a.kind.hasSlot = true := by
  rw [operators, List.mem_filter, mem_atomsInOrder_iff]

theorem mem_outermost_operators (h : Ancestral m) :
    x ∈ outermost m.operators ↔ x ∈ m.operators ∧ m.IsTop x x := by
  rw [outermost, List.mem_filter, isOutermost_iff]
  refine and_congr_right fun hx => ⟨fun houter => ?_, fun htop y hy hkind => ?_⟩
  · obtain ⟨hatom, hslot⟩ := mem_operators.1 hx
    refine ⟨hatom, rfl, Or.inl rfl, fun y hy hkind habove => ?_⟩
    rw [houter y (mem_operators.2 ⟨hy, hkind ▸ hslot⟩) hkind] at habove
    exact absurd habove Bool.false_ne_true
  · exact htop.not_isAbove h htop.mem (mem_operators.1 hy).1 hkind

theorem top_mem_outermost (h : Ancestral m) (ha : a ∈ m.operators) (hx : m.IsTop x a) :
    x ∈ outermost m.operators := by
  obtain ⟨hatom, hslot⟩ := mem_operators.1 ha
  refine (mem_outermost_operators h).2 ⟨mem_operators.2 ⟨hx.mem, ?_⟩, hx.self h hatom⟩
  rw [hx.kind]
  exact hslot

theorem slot_top (hnumbered : Numbered m.operators last) (ha : a ∈ m.operators)
    (hx : m.IsTop x a) : x.slot = a.slot := by
  rcases hx.encloses with rfl | hxa
  · rfl
  · have hslot : x.kind.hasSlot = true := hx.kind ▸ (mem_operators.1 ha).2
    exact hnumbered.shared x (mem_operators.2 ⟨hx.mem, hslot⟩) a ha hx.kind hxa

variable [Orders α]

theorem slotsNumberTops (hlocated : m.Located) (h : Ancestral m) (hnumbered : Numbered m.operators last)
    (hother : ∀ a ∈ m.atoms, a.kind.hasSlot = false → a.slot = none) :
    m.SlotsNumberTops (outermost m.operators) := by
  have hinOrder : (outermost m.operators).Sublist m.atomsInOrder :=
    List.filter_sublist.trans List.filter_sublist
  have hoperator : ∀ a ∈ m.atoms, a.slot.isSome = true → a ∈ m.operators := by
    intro a ha hslot
    refine mem_operators.2 ⟨ha, Bool.of_not_eq_false fun hkind => ?_⟩
    rw [hother a ha hkind] at hslot
    exact Bool.false_ne_true hslot
  constructor
  case top =>
    intro a ha
    obtain ⟨x, hx⟩ := h.exists_isTop ha
    exact ⟨x, hx, fun y hy => hy.unique h ha hx⟩
  case mem_tops =>
    intro x
    constructor
    · intro hx
      obtain ⟨hoperators, htop⟩ := (mem_outermost_operators h).1 hx
      obtain ⟨hatom, hslot⟩ := mem_operators.1 hoperators
      exact ⟨x, hatom, hslot, htop⟩
    · rintro ⟨a, ha, hslot, hx⟩
      exact top_mem_outermost h (mem_operators.2 ⟨ha, hslot⟩) hx
  case nodup =>
    exact ((sortBy_perm _ m.atoms).nodup_iff.2 h.nodup_atoms).sublist hinOrder
  case slotted =>
    intro a ha
    cases hslot : a.kind.hasSlot with
    | true => exact hnumbered.slotted a (mem_operators.2 ⟨ha, hslot⟩)
    | false =>
      rw [hother a ha hslot]
      rfl
  case share =>
    intro a ha b hb haslot hbslot x y hx hy
    have ha' := mem_operators.2 ⟨ha, haslot⟩
    have hb' := mem_operators.2 ⟨hb, hbslot⟩
    rw [← slot_top hnumbered ha' hx, ← slot_top hnumbered hb' hy]
    refine ⟨hnumbered.eq_of_slot (top_mem_outermost h ha' hx) (top_mem_outermost h hb' hy), ?_⟩
    exact congrArg Node.slot
  case used =>
    intro i
    rw [hnumbered.length_outermost, ← hnumbered.exists_slot_iff]
    constructor
    · rintro ⟨a, ha, hslot⟩
      have ha' := hoperator a ha (by rw [hslot]; rfl)
      obtain ⟨x, hx⟩ := h.exists_isTop ha
      exact ⟨x, top_mem_outermost h ha' hx, (slot_top hnumbered ha' hx).trans hslot⟩
    · rintro ⟨x, hx, hslot⟩
      exact ⟨x, (mem_operators.1 (List.mem_filter.1 hx).1).1, hslot⟩
  case ordered =>
    intro a ha b hb i j hi hj x y hx hy
    have ha' := hoperator a ha (by rw [hi]; rfl)
    have hb' := hoperator b hb (by rw [hj]; rfl)
    have hx' := top_mem_outermost h ha' hx
    have hy' := top_mem_outermost h hb' hy
    have hxi := (slot_top hnumbered ha' hx).trans hi
    have hyj := (slot_top hnumbered hb' hy).trans hj
    rw [hnumbered.lt_iff hx' hy' hxi hyj, precedes_iff hlocated h.nodup_atoms hinOrder hx' hy']

/-- The pass numbers the operators of a nested map. -/
theorem Nested.exists_numbered (hnested : m.Nested) (hlocated : m.Located) (h : Ancestral m)
    (hfixed : numberOperators m.atomsInOrder = m.atomsInOrder) :
    ∃ last, Numbered m.operators last :=
  numbered_nil.exists_of_numberAfter hfixed ((hnested.lined hlocated h).sublist List.filter_sublist)

end

section
variable [Coordinate α] (t : Tolerances α) (container : Address) (layout : Layout α)

theorem ancestral_enhance_build : Ancestral ((build t container layout).enhance t) := by
  refine (redrawn_enhance_build t container layout).ancestral ?_
    (ancestral_build t container layout)
  rintro a _ ⟨kind, box, slot, marks⟩
  exact ⟨rfl, rfl⟩

theorem slot_build : ∀ n ∈ (build t container layout).nodes, n.slot = none := by
  intro n hn
  rcases List.mem_cons.1 hn with rfl | hn
  · rfl
  · obtain ⟨l, -, d, -, heq⟩ := exists_source t container layout n hn
    rw [heq]
    rfl

theorem slot_of_no_operator {a : Node α} (ha : a ∈ ((build t container layout).enhance t).atoms)
    (hkind : a.kind.hasSlot = false) : a.slot = none := by
  have hplaced := placed_build t container layout
  rw [← mem_atomsInOrder_iff, atomsInOrder_enhance t hplaced] at ha
  refine slot_of_mem_refined t (fun n hn => ?_) ha hkind
  obtain ⟨b, hb, -, rfl⟩ := exists_of_mem_widen hplaced hn
  obtain ⟨box, widened, heq⟩ := widenBar_eq t.barExpansion (build t container layout).height b
  rw [heq]
  exact slot_build t container layout b hb

/-- Numbering the operators of a refined map again changes nothing. -/
theorem numberOperators_enhance (m : SurfaceMap α) (hm : Placed m.root) :
    numberOperators (m.enhance t).atomsInOrder = (m.enhance t).atomsInOrder := by
  rw [atomsInOrder_enhance t hm]
  exact numberAfter_numberAfter [] 0 _

/-- In a nested map whose atoms have corners the operators are numbered once for each top, in
the spatial order of the tops. -/
theorem slots_number_tops [Orders α]
    (hlocated : ((build t container layout).enhance t).Located)
    (hnested : ((build t container layout).enhance t).Nested) :
    ∃ tops, ((build t container layout).enhance t).SlotsNumberTops tops := by
  have hancestral := ancestral_enhance_build t container layout
  have hfixed := numberOperators_enhance t _ (placed_build t container layout)
  obtain ⟨last, hnumbered⟩ := hnested.exists_numbered hlocated hancestral hfixed
  exact ⟨_, slotsNumberTops hlocated hancestral hnumbered fun a =>
    slot_of_no_operator t container layout⟩

end

/-- Two sums and an equation; the first plus stands in two elements of its own, one in the
other. -/
def wrappedPlus : Layout Float :=
  let page : Box Float := ⟨0, 0, 60, 10⟩
  .node ⟨["katex"], "", page, []⟩ [.node ⟨[formulaClass], "", page, []⟩
    [.node ⟨[groupClass], "", page, []⟩
      [.node ⟨["mord"], "1", ⟨0, 0, 10, 10⟩, []⟩ [],
       .node ⟨["mbin"], "", ⟨10, 0, 20, 10⟩, []⟩
        [.node ⟨["mbin"], "+", ⟨10, 2, 20, 8⟩, []⟩ []],
       .node ⟨["mord"], "2", ⟨20, 0, 30, 10⟩, []⟩ [],
       .node ⟨["mrel"], "=", ⟨30, 0, 40, 10⟩, []⟩ [],
       .node ⟨["mord"], "1", ⟨40, 0, 45, 10⟩, []⟩ [],
       .node ⟨["mbin"], "+", ⟨45, 0, 50, 10⟩, []⟩ [],
       .node ⟨["mord"], "2", ⟨50, 0, 60, 10⟩, []⟩ []]]]

theorem wrappedPlus_slots_number_tops :
    ((build .standard [] wrappedPlus).enhance .standard).Located ∧
      ((build .standard [] wrappedPlus).enhance .standard).Nested ∧
      (((build .standard [] wrappedPlus).enhance .standard).atoms.map (·.slot)) =
        [none, some 0, some 0, none, some 1, none, some 2, none] ∧
      ∃ tops, ((build .standard [] wrappedPlus).enhance .standard).SlotsNumberTops tops := by
  have hlocated : ((build .standard [] wrappedPlus).enhance .standard).Located := by
    decide +kernel
  have hnested : ((build .standard [] wrappedPlus).enhance .standard).Nested := by decide +kernel
  refine ⟨hlocated, hnested, ?_, slots_number_tops .standard [] wrappedPlus hlocated hnested⟩
  decide +kernel

/-- Two plus signs to the left of two numerals, in an element of their class that has no left
edge. -/
def misplacedSums : Layout Float :=
  let page : Box Float := ⟨0, 0, 30, 10⟩
  .node ⟨["katex"], "", page, []⟩ [.node ⟨[formulaClass], "", page, []⟩
    [.node ⟨[groupClass], "", page, []⟩
      [.node ⟨["mord"], "1", ⟨20, 0, 30, 10⟩, []⟩ [],
       .node ⟨["mord"], "2", ⟨10, 0, 20, 10⟩, []⟩ [],
       .node ⟨["mbin"], "", ⟨0 / 0, 0, 10, 10⟩, []⟩
        [.node ⟨["mbin"], "+", ⟨1, 0, 2, 1⟩, []⟩ [],
         .node ⟨["mbin"], "+", ⟨2, 0, 3, 1⟩, []⟩ []]]]]

/-- Its refined map. -/
def misplacedMap : SurfaceMap Float := (build .standard [] misplacedSums).enhance .standard

/-- The signs are numbered before the element that holds both of them. -/
theorem exists_isTop_misplacedMap : misplacedMap.Nested ∧
    ∃ x ∈ misplacedMap.atoms, ∃ a ∈ misplacedMap.atoms, ∃ b ∈ misplacedMap.atoms,
      a.kind.hasSlot = true ∧ b.kind.hasSlot = true ∧ misplacedMap.IsTop x a ∧
        misplacedMap.IsTop x b ∧ a.slot ≠ b.slot :=
  ⟨by decide +kernel, by decide +kernel⟩

/-- Without corners, operators with the same top need not share a slot. -/
theorem not_forall_slotsNumberTops : ¬ ∀ layout : Layout Float,
    ((build .standard [] layout).enhance .standard).Nested →
      ∃ tops, ((build .standard [] layout).enhance .standard).SlotsNumberTops tops := by
  intro h
  obtain ⟨hnested, x, -, a, ha, b, hb, haslot, hbslot, hxa, hxb, hne⟩ := exists_isTop_misplacedMap
  obtain ⟨tops, hnumbered⟩ := h misplacedSums hnested
  exact hne ((hnumbered.share a ha b hb haslot hbslot x x hxa hxb).2 rfl)

end SurfaceMap
end FormulaMap

/-
The passes a second time.

A second run starts from what the first has left.  Kinds, slots and minus signs come out as
they were: the only atoms that are told apart in kind once more are the decimals that have
become whole numbers, and a decimal is no more an operator than a mixed number is.  But
these decimals are joined again, and claim again what they claimed in the first run, while
the other whole numbers, which are no numerals any more, do not (`Findings.Of.joinMixed_reopen`).
-/
import FormulaMap.Proofs.Surface.Spines
import FormulaMap.Proofs.Surface.Wholes

namespace FormulaMap

variable {α : Type}

/-- The node without what the passes after the widening of bars write. -/
def Node.asDrawn (n : Node α) : Node α := { n with kind := .other, slot := none, marks := .none }

def Joint.isDecimal (j : Joint α) : Bool := Category.isDecimal j.whole.glyphs

namespace Enhance

/-! ## Kinds -/

theorem reclassifyNode_reclassifyNode (n : Node α) :
    reclassifyNode (reclassifyNode n) = reclassifyNode n := by
  rw [reclassifyNode_eq_kind (reclassifyNode n), reclassifyNode_eq_kind n]
  show ({ n with kind := if Category.isDecimal n.glyphs then .decimal
    else if Category.hasGreek n.glyphs then .var
    else if Category.isDecimal n.glyphs then .decimal
    else if Category.hasGreek n.glyphs then .var else n.kind } : Node α) = _
  split
  · rfl
  · split <;> rfl

/-- A minus is neither a decimal nor a Greek letter. -/
theorem reclassifyNode_of_minus {n : Node α} (h : isMinusGlyph (String.ofList n.glyphs) = true) :
    reclassifyNode n = n := by
  have hglyphs : n.glyphs = ['-'] ∨ n.glyphs = ['−'] := by
    rw [isMinusGlyph, Bool.or_eq_true, beq_iff_eq, beq_iff_eq] at h
    exact h.imp (fun h => by rw [← String.toList_ofList (l := n.glyphs), h]; rfl)
      (fun h => by rw [← String.toList_ofList (l := n.glyphs), h]; rfl)
  rw [reclassifyNode]
  rcases hglyphs with hglyphs | hglyphs <;> rw [hglyphs] <;> rfl

/-! ## Operators -/

def withSlot (slot : Option Nat) (n : Node α) : Node α := { n with slot := slot }

theorem numberAfter_numberAfter (numbered : List (Node α)) (next : Nat) (ns : List (Node α)) :
    numberAfter numbered next (numberAfter numbered next ns) = numberAfter numbered next ns := by
  induction ns generalizing numbered next with
  | nil => rfl
  | cons n ns ih =>
    rw [numberAfter]
    split
    · next hslot =>
      have hshared : ∀ s, sharedSlot? numbered { n with slot := some s } = sharedSlot? numbered n :=
        fun _ => rfl
      split
      · next s hs =>
        dsimp only
        rw [numberAfter, if_pos hslot, hshared, hs]
        exact congrArg (List.cons _) (ih _ _)
      · next hs =>
        dsimp only
        rw [numberAfter, if_pos hslot, hshared, hs]
        exact congrArg (List.cons _) (ih _ _)
    · next hslot =>
      rw [numberAfter, if_neg hslot, ih]

/-- What nodes are parts of has no part in the numbering. -/
theorem numberAfter_withPart (part : Node α → Option String)
    (hpart : ∀ s n, part (withSlot s n) = part n) (numbered : List (Node α)) (next : Nat)
    (ns : List (Node α)) :
    numberAfter (numbered.map fun n => withPart (part n) n) next
        (ns.map fun n => withPart (part n) n) =
      (numberAfter numbered next ns).map fun n => withPart (part n) n := by
  induction ns generalizing numbered next with
  | nil => rfl
  | cons n ns ih =>
    have hshared : sharedSlot? (numbered.map fun n => withPart (part n) n) (withPart (part n) n) =
        sharedSlot? numbered n := by
      rw [sharedSlot?, List.find?_map, Option.bind_map]
      rfl
    have hnode : ∀ s, withSlot (some s) (withPart (part n) n) =
        withPart (part (withSlot (some s) n)) (withSlot (some s) n) := fun s => by
      rw [hpart]
      rfl
    have happend : ∀ m : Node α, (numbered.map fun n => withPart (part n) n) ++
        [withPart (part m) m] = (numbered ++ [m]).map fun n => withPart (part n) n := fun m => by
      rw [List.map_append]
      rfl
    rw [List.map_cons, numberAfter, numberAfter, hshared]
    show (if n.kind.hasSlot = true then _ else _) = _
    split
    · cases sharedSlot? numbered n with
      | some s =>
        show withSlot (some s) (withPart (part n) n) ::
          numberAfter (_ ++ [withSlot (some s) (withPart (part n) n)]) next _ = _
        rw [hnode, happend, ih]
        rfl
      | none =>
        show withSlot (some next) (withPart (part n) n) ::
          numberAfter (_ ++ [withSlot (some next) (withPart (part n) n)]) (next + 1) _ = _
        rw [hnode, happend, ih]
        rfl
    · rw [ih]
      rfl

/-- The slots that are written can be told by the numbers of the nodes. -/
theorem exists_slots {ns : List (Node α)} (hdistinct : (ns.map (·.number)).Nodup)
    (numbered : List (Node α)) (next : Nat) : ∃ slot : Nat → Option Nat,
      numberAfter numbered next ns = ns.map fun n => withSlot (slot n.number) n := by
  induction ns generalizing numbered next with
  | nil => exact ⟨fun _ => none, rfl⟩
  | cons n ns ih =>
    rw [List.map_cons, List.nodup_cons] at hdistinct
    -- The slot of the first node is added to those of the rest, which have other numbers.
    have hcons : ∀ (s : Option Nat) (slot : Nat → Option Nat), ∃ slot' : Nat → Option Nat,
        withSlot s n :: (ns.map fun m => withSlot (slot m.number) m) =
          (n :: ns).map fun m => withSlot (slot' m.number) m := by
      intro s slot
      refine ⟨fun k => if k = n.number then s else slot k, ?_⟩
      rw [List.map_cons]
      dsimp only
      rw [if_pos rfl]
      refine congrArg (List.cons _) (List.map_congr_left fun m hm => ?_)
      have hne : m.number ≠ n.number := fun heq => hdistinct.1 (heq ▸ List.mem_map_of_mem hm)
      rw [if_neg hne]
    rw [numberAfter]
    split
    · cases sharedSlot? numbered n with
      | some s =>
        obtain ⟨slot, hrest⟩ := ih hdistinct.2 (numbered ++ [withSlot (some s) n]) next
        obtain ⟨slot', hslot⟩ := hcons (some s) slot
        exact ⟨slot', (congrArg (List.cons _) hrest).trans hslot⟩
      | none =>
        obtain ⟨slot, hrest⟩ := ih hdistinct.2 (numbered ++ [withSlot (some next) n]) (next + 1)
        obtain ⟨slot', hslot⟩ := hcons (some next) slot
        exact ⟨slot', (congrArg (List.cons _) hrest).trans hslot⟩
    · obtain ⟨slot, hrest⟩ := ih hdistinct.2 numbered next
      obtain ⟨slot', hslot⟩ := hcons n.slot slot
      exact ⟨slot', (congrArg (List.cons n) hrest).trans hslot⟩

/-! ## Findings -/

/-- What a run writes into resolved atoms. -/
structure Findings (α : Type) where
  joints : List (Joint α)
  part : Node α → Option String
  slot : Nat → Option Nat

namespace Findings

/-- A node after the run. -/
def after (r : Findings α) (n : Node α) : Node α :=
  withSlot (r.slot n.number) (settle r.joints (r.part n) n)

/-- The node when it has been told apart in kind once more: a decimal that was joined is a
decimal again. -/
def reopen (r : Findings α) (n : Node α) : Node α :=
  { r.after n with
    kind :=
      if (jointOf? r.joints n).isSome && Category.isDecimal n.glyphs then .decimal
      else (r.after n).kind }

theorem kind_after (r : Findings α) (n : Node α) :
    (r.after n).kind = if (jointOf? r.joints n).isSome then .mixedNumber else n.kind := rfl

theorem reopen_of_none {r : Findings α} {n : Node α} (hn : jointOf? r.joints n = none) :
    r.reopen n = r.after n := by
  rw [reopen, hn]
  rfl

theorem kind_reopen_of_some {r : Findings α} {n : Node α} {j : Joint α}
    (hn : jointOf? r.joints n = some j) :
    (r.reopen n).kind = if Category.isDecimal n.glyphs then .decimal else .mixedNumber := by
  show (if _ then _ else (r.after n).kind) = _
  rw [kind_after, hn]
  rfl

end Findings

variable [Coordinate α]

/-! ## Minus signs -/

theorem mem_resolveAfter {ratio : α} {ns : List (Node α)} {seen : List (Node α)} {n : Node α}
    (hn : n ∈ resolveAfter ratio seen ns) : ∃ a ∈ ns, ∃ before, n = resolveNode ratio before a := by
  induction ns generalizing seen with
  | nil => exact absurd hn List.not_mem_nil
  | cons a ns ih =>
    rw [resolveAfter] at hn
    rcases List.mem_cons.1 hn with rfl | hn
    · exact ⟨a, List.mem_cons_self, seen, rfl⟩
    · obtain ⟨b, hb, before, heq⟩ := ih hn
      exact ⟨b, List.mem_cons_of_mem a hb, before, heq⟩

theorem resolveNode_resolveNode (ratio : α) (seen : List (Node α)) (n : Node α) :
    resolveNode ratio seen (resolveNode ratio seen n) = resolveNode ratio seen n := by
  by_cases h : isMinusGlyph (String.ofList n.glyphs) = true
  · rw [show resolveNode ratio seen n = { n with kind := minusKind ratio seen n } from if_pos h]
    exact if_pos h
  · rw [show resolveNode ratio seen n = n from if_neg h]
    exact if_neg h

theorem resolveAfter_resolveAfter (ratio : α) (seen ns : List (Node α)) :
    resolveAfter ratio seen (resolveAfter ratio seen ns) = resolveAfter ratio seen ns := by
  induction ns generalizing seen with
  | nil => rfl
  | cons n ns ih =>
    rw [resolveAfter, resolveAfter, resolveNode_resolveNode, ih]

theorem minusKind_map {f : Node α → Node α} (hdrawn : ∀ n, (f n).asDrawn = n.asDrawn) (ratio : α)
    {seen : List (Node α)}
    (hopens : ∀ n ∈ seen, (f n).kind.opensOperand = n.kind.opensOperand) (n : Node α) :
    minusKind ratio (seen.map f) (f n) = minusKind ratio seen n := by
  have hnumber : ∀ m, (f m).number = m.number := fun m => congrArg (·.number) (hdrawn m)
  have habove : ∀ m, (f m).above = m.above := fun m => congrArg (·.above) (hdrawn m)
  have hbox : ∀ m, (f m).box = m.box := fun m => congrArg (·.box) (hdrawn m)
  have hbeside : ((fun other => !(f n).related other && sameLine ratio (f n) other) ∘ f) =
      fun other => !n.related other && sameLine ratio n other := by
    funext other
    simp only [Function.comp, Node.related, Node.isAbove, sameLine, hnumber, habove, hbox]
  rw [minusKind, List.find?_map, hbeside, minusKind]
  cases hfind : seen.find? fun other => !n.related other && sameLine ratio n other with
  | none => rfl
  | some other =>
    show (if (f other).kind.opensOperand then _ else _) = _
    rw [hopens other (List.mem_of_find?_eq_some hfind)]

/-- Minus signs stay what they are if what stands to their left still opens an operand, or
still does not. -/
theorem resolveAfter_map {f : Node α → Node α} (hdrawn : ∀ n, (f n).asDrawn = n.asDrawn)
    {ratio : α} {seen ns : List (Node α)} (hfixed : resolveAfter ratio seen ns = ns)
    (hminus : ∀ n ∈ ns, isMinusGlyph (String.ofList n.glyphs) = true → (f n).kind = n.kind)
    (hopens : ∀ n ∈ seen ++ ns, (f n).kind.opensOperand = n.kind.opensOperand) :
    resolveAfter ratio (seen.map f) (ns.map f) = ns.map f := by
  induction ns generalizing seen with
  | nil => rfl
  | cons n ns ih =>
    rw [resolveAfter, List.cons.injEq] at hfixed
    obtain ⟨hhead, htail⟩ := hfixed
    rw [hhead] at htail
    have hseen := fun m hm => hopens m (List.mem_append_left (n :: ns) hm)
    have hnode : resolveNode ratio (seen.map f) (f n) = f n := by
      have hglyphs : (f n).glyphs = n.glyphs :=
        (congrArg Node.glyphs (hdrawn n) :)
      rw [resolveNode, hglyphs, minusKind_map hdrawn ratio hseen]
      split
      · next hglyph =>
        have hkind : minusKind ratio seen n = n.kind := by
          have hresolved : (resolveNode ratio seen n).kind = n.kind := by rw [hhead]
          rwa [resolveNode, if_pos hglyph] at hresolved
        rw [hkind, ← hminus n List.mem_cons_self hglyph]
      · rfl
    rw [List.map_cons, resolveAfter, hnode]
    refine congrArg (List.cons (f n)) (ih htail ?_ ?_)
    · exact fun m hm => hminus m (List.mem_cons_of_mem n hm)
    · intro m hm
      refine hopens m ?_
      rw [List.cons_append] at hm
      rcases List.mem_cons.1 hm with rfl | hm
      · exact List.mem_append_right seen List.mem_cons_self
      · exact (List.mem_append.1 hm).elim (List.mem_append_left _)
          fun hm => List.mem_append_right seen (List.mem_cons_of_mem n hm)

theorem isNumeric_minusKind (ratio : α) (seen : List (Node α)) (n : Node α) :
    (minusKind ratio seen n).isNumeric = false := by
  unfold minusKind
  split
  · rfl
  · split <;> rfl

/-! ## What a run leaves -/

/-- Atoms that have been told apart in kind, and that are not joined with bars yet. -/
structure Resolved (ratio : α) (ns : List (Node α)) : Prop where
  distinct : (ns.map (·.number)).Nodup
  ids : ∀ n ∈ ns, n.id ≠ ""
  noMark : ∀ n ∈ ns, n.marks.bar = none ∧ n.marks.partOf = none
  noMixed : ∀ n ∈ ns, n.kind ≠ .mixedNumber
  reclassified : ∀ n ∈ ns, reclassifyNode n = n
  resolved : resolveMinus ratio ns = ns

namespace Findings

/-- The findings that a run can have: whatever is claimed is marked as a part. -/
structure Of (r : Findings α) (gap : α) (ns : List (Node α)) : Prop where
  joints : r.joints = Enhance.joints gap ns
  marked : ∀ n ∈ ns, r.joints.any (claims · n) = true → ∃ p, r.part n = some p ∧ p ≠ ""

end Findings

/-- What joints claim is marked as theirs, whatever it has been a part of. -/
def remark (js : List (Joint α)) (n : Node α) : Node α :=
  withPart ((owner? js n).or n.marks.partOf) n

variable {ratio gap : α} {ns : List (Node α)} {r : Findings α}

theorem Resolved.not_numeric_of_minus (h : Resolved ratio ns) {n : Node α} (hn : n ∈ ns)
    (hminus : isMinusGlyph (String.ofList n.glyphs) = true) : n.kind.isNumeric = false := by
  have hmem : n ∈ resolveAfter ratio [] ns := by
    have hresolved := h.resolved
    rw [resolveMinus] at hresolved
    rwa [hresolved]
  obtain ⟨a, -, before, rfl⟩ := mem_resolveAfter hmem
  obtain ⟨k, hk⟩ := resolveNode_eq ratio before a
  have hglyph : isMinusGlyph (String.ofList a.glyphs) = true := by
    rw [hk] at hminus
    exact hminus
  rw [resolveNode, if_pos hglyph]
  exact isNumeric_minusKind ratio before a

namespace Findings

theorem Of.spec (hr : r.Of gap ns) (h : Resolved ratio ns) : Joints ns r.joints := by
  rw [hr.joints]
  exact joints_spec gap h.distinct

/-- A joined number is a numeral. -/
theorem Of.isNumeric (hr : r.Of gap ns) (h : Resolved ratio ns) {n : Node α} (hn : n ∈ ns)
    {j : Joint α} (hj : jointOf? r.joints n = some j) : n.kind.isNumeric = true := by
  obtain ⟨hmem, rfl⟩ := (hr.spec h).jointOf?_spec hn hj
  exact ((hr.spec h).whole j hmem).2

theorem Of.reclassifyNode_after (hr : r.Of gap ns) (h : Resolved ratio ns) {n : Node α}
    (hn : n ∈ ns) : reclassifyNode (r.after n) = r.reopen n := by
  have hkind : (if Category.isDecimal n.glyphs then Kind.decimal
      else if Category.hasGreek n.glyphs then .var else n.kind) = n.kind := by
    have hfixed := congrArg Node.kind (h.reclassified n hn)
    rwa [reclassifyNode_eq_kind] at hfixed
  rw [reclassifyNode_eq_kind]
  show ({ r.after n with kind := if Category.isDecimal n.glyphs then .decimal
    else if Category.hasGreek n.glyphs then .var else (r.after n).kind } : Node α) = _
  cases hj : jointOf? r.joints n with
  | none =>
    have hafter : (r.after n).kind = n.kind := by
      rw [kind_after, hj]
      rfl
    rw [reopen_of_none hj, hafter, hkind, ← hafter]
  | some j =>
    have hnumeric := hr.isNumeric h hn hj
    rw [reopen, hj]
    by_cases hdecimal : Category.isDecimal n.glyphs = true
    · rw [if_pos hdecimal, hdecimal]
      rfl
    · rw [if_neg hdecimal] at hkind
      have hgreek : ¬Category.hasGreek n.glyphs = true := fun hgreek => by
        rw [if_pos hgreek] at hkind
        rw [← hkind] at hnumeric
        exact Bool.false_ne_true hnumeric
      rw [if_neg hdecimal, if_neg hgreek, Bool.eq_false_iff.2 hdecimal]
      rfl

/-! ## The second run -/

theorem Of.resolveMinus_reopen (hr : r.Of gap ns) (h : Resolved ratio ns) :
    resolveMinus ratio (ns.map r.reopen) = ns.map r.reopen := by
  refine resolveAfter_map (f := r.reopen) (fun _ => rfl) h.resolved (fun n hn hminus => ?_)
    fun n hn => ?_
  · cases hj : jointOf? r.joints n with
    | none =>
      rw [reopen_of_none hj, kind_after, hj]
      rfl
    | some j =>
      have hnumeric := hr.isNumeric h hn hj
      rw [h.not_numeric_of_minus hn hminus] at hnumeric
      exact absurd hnumeric Bool.false_ne_true
  · rw [List.nil_append] at hn
    cases hj : jointOf? r.joints n with
    | none =>
      rw [reopen_of_none hj, kind_after, hj]
      rfl
    | some j =>
      have hnumeric := hr.isNumeric h hn hj
      have hopens : n.kind.opensOperand = false := by
        cases hkind : n.kind <;> rw [hkind] at hnumeric <;> first | rfl | cases hnumeric
      rw [kind_reopen_of_some hj, hopens]
      split <;> rfl

theorem Of.isNumeric_reopen (hr : r.Of gap ns) (h : Resolved ratio ns) {n : Node α} (hn : n ∈ ns)
    (hnumeric : (r.reopen n).kind.isNumeric = true) : n.kind.isNumeric = true := by
  cases hj : jointOf? r.joints n with
  | none =>
    rw [reopen_of_none hj, kind_after, hj] at hnumeric
    exact hnumeric
  | some j => exact hr.isNumeric h hn hj

/-- The bars are still the bars. -/
theorem Of.filter_reopen (hr : r.Of gap ns) (h : Resolved ratio ns) :
    (ns.map r.reopen).filter (·.kind = .fracBar) =
      (ns.filter (·.kind = .fracBar)).map r.reopen := by
  rw [List.filter_map]
  refine congrArg (List.map r.reopen) (List.filter_congr fun n hn => ?_)
  show decide ((r.reopen n).kind = .fracBar) = decide (n.kind = .fracBar)
  cases hj : jointOf? r.joints n with
  | none =>
    rw [reopen_of_none hj, kind_after, hj]
    rfl
  | some j =>
    have hnumeric := hr.isNumeric h hn hj
    have hkind : n.kind ≠ .fracBar := fun hbar => by
      rw [hbar] at hnumeric
      exact Bool.false_ne_true hnumeric
    rw [kind_reopen_of_some hj, decide_eq_false hkind]
    split <;> rfl

/-- The joints that are made again, of the nodes as the second run finds them. -/
def again (r : Findings α) (js : List (Joint α)) : List (Joint α) :=
  (js.filter Joint.isDecimal).map fun j => ⟨r.reopen j.whole, r.reopen j.bar⟩

theorem claims_again (r : Findings α) (j : Joint α) (n : Node α) :
    claims ⟨r.reopen j.whole, r.reopen j.bar⟩ n = claims j n := rfl

theorem claims_reopen {j : Joint α} {n : Node α}
    (hnumeric : n.kind.isNumeric = true) (hreopened : (r.reopen n).kind.isNumeric = true) :
    claims j (r.reopen n) = claims j n := by
  rw [claims, claims, hnumeric, hreopened]
  rfl

/-- A second run joins a number if it was joined before and is a decimal. -/
theorem Of.nextJoint?_reopen (hr : r.Of gap ns) (h : Resolved ratio ns) {js : List (Joint α)}
    (hjs : ∀ j ∈ js, j ∈ r.joints) {n : Node α} (hn : n ∈ ns)
    (hjoint : jointOf? r.joints n = nextJoint? gap (ns.filter (·.kind = .fracBar)) js n) :
    nextJoint? gap ((ns.filter (·.kind = .fracBar)).map r.reopen) (r.again js) (r.reopen n) =
      ((nextJoint? gap (ns.filter (·.kind = .fracBar)) js n).filter Joint.isDecimal).map
        fun j => ⟨r.reopen j.whole, r.reopen j.bar⟩ := by
  have hfollows : ∀ bars : List (Node α), (bars.map r.reopen).find? (follows gap (r.reopen n)) =
      (bars.find? (follows gap n)).map r.reopen := fun bars => by
    rw [List.find?_map]
    rfl
  cases hnext : nextJoint? gap (ns.filter (·.kind = .fracBar)) js n with
  | some j =>
    rw [hnext] at hjoint
    obtain ⟨hnumeric, hpart, hfree, rfl, hbar⟩ := nextJoint?_eq_some.1 hnext
    have hkind := kind_reopen_of_some hjoint
    by_cases hdecimal : Category.isDecimal j.whole.glyphs = true
    · rw [Option.filter_some, if_pos (show j.isDecimal = true from hdecimal), Option.map_some,
        nextJoint?_eq_some]
      rw [if_pos hdecimal] at hkind
      have hnumeric' : (r.reopen j.whole).kind.isNumeric = true := by
        rw [hkind]
        rfl
      refine ⟨hnumeric', ?_, ?_, rfl, by rw [hfollows, hbar]; rfl⟩
      · have hsame : (r.reopen j.whole).marks.partOf = j.whole.marks.partOf := by
          show (if (jointOf? r.joints j.whole).isSome then _ else _) = _
          rw [hjoint]
          rfl
        rw [Node.isMixedPart, Node.mixedOwner?, hsame]
        exact hpart
      · rw [List.any_eq_false] at hfree ⊢
        intro i hi
        obtain ⟨i, himem, rfl⟩ := List.mem_map.1 hi
        rw [claims_again, claims_reopen hnumeric hnumeric']
        exact hfree i (List.mem_filter.1 himem).1
    · rw [Option.filter_some, if_neg (show ¬j.isDecimal = true from hdecimal), Option.map_none,
        nextJoint?, hkind, if_neg hdecimal]
      rfl
  | none =>
    rw [hnext] at hjoint
    refine Option.eq_none_iff_forall_not_mem.2 fun i hi => ?_
    obtain ⟨hnumeric', hpart, -, -, hbar⟩ := nextJoint?_eq_some.1 hi
    have hnumeric := hr.isNumeric_reopen h hn hnumeric'
    rw [hfollows] at hbar
    obtain ⟨b, hb, -⟩ := Option.map_eq_some_iff.1 hbar
    have hfree : js.any (claims · n) = false := by
      refine Bool.eq_false_iff.2 fun hany => ?_
      obtain ⟨j, hj, hclaims⟩ := List.any_eq_true.1 hany
      obtain ⟨p, hp, hne⟩ := hr.marked n hn (List.any_eq_true.2 ⟨j, hjs j hj, hclaims⟩)
      have hmarked : (r.reopen n).marks.partOf = some p := by
        show (if (jointOf? r.joints n).isSome then _ else _) = _
        rw [hjoint, ← hp]
        rfl
      rw [Node.isMixedPart, Node.mixedOwner?, hmarked] at hpart
      simp [hne] at hpart
    have hfound : nextJoint? gap (ns.filter (·.kind = .fracBar)) js n = some ⟨n, b⟩ :=
      nextJoint?_eq_some.2
        ⟨hnumeric, Node.not_isMixedPart_of_partOf (h.noMark n hn).2, hfree, rfl, hb⟩
    rw [hnext] at hfound
    exact absurd hfound (Option.some_ne_none _).symm

/-- The second run makes the joints of decimals again. -/
theorem Of.joints_reopen (hr : r.Of gap ns) (h : Resolved ratio ns) :
    Enhance.joints gap (ns.map r.reopen) = r.again r.joints := by
  have hafter : ∀ (rest : List (Node α)) (js : List (Joint α)), (∀ m ∈ rest, m ∈ ns) →
      (rest.map (·.number)).Nodup → (∀ m ∈ rest, jointOf? js m = none) →
      r.joints = jointsAfter gap (ns.filter (·.kind = .fracBar)) js rest →
      jointsAfter gap ((ns.filter (·.kind = .fracBar)).map r.reopen) (r.again js)
        (rest.map r.reopen) = r.again r.joints := by
    intro rest
    induction rest with
    | nil =>
      intro js _ _ _ hjoints
      rw [hjoints]
      rfl
    | cons n rest ih =>
      intro js hrest hdistinct hnew hjoints
      have hjs : ∀ j ∈ js, j ∈ r.joints := by
        rw [hjoints]
        exact subset_jointsAfter gap _ js (n :: rest)
      have hjoint : jointOf? r.joints n =
          nextJoint? gap (ns.filter (·.kind = .fracBar)) js n := by
        rw [hjoints]
        exact jointOf?_jointsAfter_cons hdistinct (hnew n List.mem_cons_self)
      rw [List.map_cons, jointsAfter,
        hr.nextJoint?_reopen h hjs (hrest n List.mem_cons_self) hjoint]
      have hagain : r.again js ++
          (((nextJoint? gap (ns.filter (·.kind = .fracBar)) js n).filter Joint.isDecimal).map
            fun j => (⟨r.reopen j.whole, r.reopen j.bar⟩ : Joint α)).toList =
          r.again (js ++ (nextJoint? gap (ns.filter (·.kind = .fracBar)) js n).toList) := by
        rw [again, again, List.filter_append, List.map_append]
        cases nextJoint? gap (ns.filter (·.kind = .fracBar)) js n with
        | none => rfl
        | some j =>
          rw [Option.filter_some, Option.toList_some, List.filter_singleton]
          cases j.isDecimal <;> rfl
      rw [hagain]
      exact ih _ (fun m hm => hrest m (List.mem_cons_of_mem n hm)) (List.nodup_cons.1 hdistinct).2
        (jointOf?_next hdistinct hnew) hjoints
  rw [Enhance.joints, hr.filter_reopen h]
  exact hafter ns [] (fun m hm => hm) h.distinct (fun m _ => rfl) hr.joints

theorem find?_filter_of_eq {β : Type} {p q : β → Bool} {d : Bool} {xs : List β}
    (h : ∀ x ∈ xs, q x = true → p x = d) :
    (xs.filter p).find? q = if d then xs.find? q else none := by
  induction xs with
  | nil => cases d <;> rfl
  | cons x xs ih =>
    have hrest := ih fun y hy => h y (List.mem_cons_of_mem x hy)
    have hfirst := h x List.mem_cons_self
    rw [List.filter_cons, List.find?_cons]
    cases hq : q x with
    | true =>
      rw [hfirst hq]
      cases d with
      | true => rw [if_pos rfl, List.find?_cons, hq]; rfl
      | false => rw [if_neg Bool.false_ne_true, hrest]; rfl
    | false =>
      cases hp : p x with
      | true => rw [if_pos rfl, List.find?_cons, hq, hrest]
      | false => rw [if_neg Bool.false_ne_true, hrest]

theorem owner?_again (r : Findings α) (js : List (Joint α)) (n : Node α) :
    owner? (r.again js) n = owner? (js.filter Joint.isDecimal) n := by
  rw [owner?, lastClaim?, again, List.filter_map, List.getLast?_map, Option.map_map]
  rfl

/-- The joints of decimals are those of the nodes that are decimals. -/
theorem Of.jointOf?_decimals (hr : r.Of gap ns) (h : Resolved ratio ns) {n : Node α} (hn : n ∈ ns) :
    jointOf? (r.joints.filter Joint.isDecimal) n =
      if Category.isDecimal n.glyphs then jointOf? r.joints n else none := by
  have hspec := hr.spec h
  have hsame : ∀ j ∈ r.joints, j.whole.number = n.number →
      j.isDecimal = Category.isDecimal n.glyphs := fun j hj hnumber => by
    rw [Joint.isDecimal, List.inj_on_of_nodup_map h.distinct (hspec.whole j hj).1 hn hnumber]
  exact find?_filter_of_eq fun j hj hnumber => hsame j hj (beq_iff_eq.1 hnumber)

theorem Of.jointOf?_again (hr : r.Of gap ns) (h : Resolved ratio ns) {n : Node α} (hn : n ∈ ns) :
    jointOf? (r.again r.joints) (r.reopen n) =
      if Category.isDecimal n.glyphs then
        (jointOf? r.joints n).map fun j => ⟨r.reopen j.whole, r.reopen j.bar⟩
      else none := by
  have hmap : jointOf? (r.again r.joints) (r.reopen n) =
      (jointOf? (r.joints.filter Joint.isDecimal) n).map
        fun j => ⟨r.reopen j.whole, r.reopen j.bar⟩ := by
    rw [jointOf?, again, List.find?_map]
    rfl
  rw [hmap, hr.jointOf?_decimals h hn]
  split <;> rfl

/-- Nothing claims a number that has been joined. -/
theorem Of.owner?_after (hr : r.Of gap ns) (h : Resolved ratio ns) {n : Node α} (hn : n ∈ ns)
    {j : Joint α} (hj : jointOf? r.joints n = some j) {js : List (Joint α)}
    (hjs : ∀ i ∈ js, i ∈ r.joints) : owner? js (r.after n) = none := by
  have hkind : (r.after n).kind = .mixedNumber := by
    rw [kind_after, hj]
    rfl
  rw [owner?, Option.map_eq_none_iff, lastClaim?_eq_none, List.any_eq_false]
  intro i hi
  have hbar : (r.after n).number ≠ i.bar.number :=
    (hr.spec h).number_ne hn (hr.isNumeric h hn hj) (hjs i hi)
  rw [claims, hkind, beq_false_of_ne hbar]
  exact Bool.false_ne_true

/-- A second run leaves a node as it was, but for what the joints of decimals claim. -/
theorem Of.settled_reopen (hr : r.Of gap ns) (h : Resolved ratio ns) {n : Node α} (hn : n ∈ ns) :
    settled (r.again r.joints) (r.reopen n) =
      remark (r.joints.filter Joint.isDecimal) (r.after n) := by
  have hagain := hr.jointOf?_again h hn
  have howner := owner?_again r r.joints (r.reopen n)
  by_cases hdecimal : (jointOf? r.joints n).isSome = true ∧ Category.isDecimal n.glyphs = true
  · -- A decimal that is joined becomes a decimal, and is joined again.
    obtain ⟨j, hj⟩ := Option.isSome_iff_exists.1 hdecimal.1
    have hnone : owner? (r.joints.filter Joint.isDecimal) (r.after n) = none :=
      hr.owner?_after h hn hj fun i hi => (List.mem_filter.1 hi).1
    rw [if_pos hdecimal.2, hj] at hagain
    rw [settled, settle, hagain, remark, hnone, reopen, after, settle, hj]
    rfl
  · -- Any other node is as the first run left it, and is not joined.
    have hsame : r.reopen n = r.after n := by
      rw [reopen, if_neg (by rwa [Bool.and_eq_true])]
    have hunjoined : jointOf? (r.again r.joints) (r.reopen n) = none := by
      rw [hagain]
      split
      · next hd =>
        rw [Option.map_eq_none_iff, ← Option.not_isSome_iff_eq_none]
        exact fun hsome => hdecimal ⟨hsome, hd⟩
      · rfl
    rw [hsame] at howner hunjoined ⊢
    rw [settled, settle, hunjoined, howner, remark]
    rfl

theorem Of.joinMixed_reopen (hr : r.Of gap ns) (h : Resolved ratio ns) :
    joinMixed gap (ns.map r.reopen) =
      (ns.map r.after).map (remark (r.joints.filter Joint.isDecimal)) := by
  have hdistinct : ((ns.map r.reopen).map (·.number)).Nodup := by
    rw [List.map_map]
    exact h.distinct
  have hids : ∀ m ∈ ns.map r.reopen, m.id ≠ "" := by
    intro m hm
    obtain ⟨n, hn, rfl⟩ := List.mem_map.1 hm
    exact h.ids n hn
  rw [joinMixed_eq gap hdistinct hids, hr.joints_reopen h, List.map_map, List.map_map]
  exact List.map_congr_left fun n hn => hr.settled_reopen h hn

end Findings

end Enhance
end FormulaMap

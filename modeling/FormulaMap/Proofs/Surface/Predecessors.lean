/-
The atom before a minus sign.

A minus is a sign or an operation by its predecessor: the last atom before it in spatial
order that is beside it and does not enclose it.  The pass over the minus signs reads this
off a list of atoms that are still to be joined and numbered.  It can be read off the
refined map as well, since the later passes leave alone which kinds open an operand
(`resolveMinus_refined`), so that the predecessor decides (`kind_eq_minusBinary_iff`).

A minus right after a fraction and beside its bar has a predecessor (`minus_after_bar`).  It
is the bar or an atom that comes after the bar, and if it is the bar then the minus is a
sign: in a fraction so tall that nothing above or below the bar reaches the line of the
minus, as in `tallDifference`.  This asks for atoms whose corners are numbers (`Located`),
since others have no place in the spatial order.  That the middle of the minus is beside the
bar is enough only where lengths are not rounded: of floats the heights may leave no
overlap.
-/
import FormulaMap.Proofs.Geometry.Comparing
import FormulaMap.Proofs.Surface.MixedNumbers

namespace FormulaMap

variable {α : Type}

namespace SurfaceMap

open Enhance

variable [Coordinate α]

/-- The atom by which a minus is told to be a sign or an operation: the last one before it
that is beside it. -/
structure IsPredecessor (ratio : α) (m : SurfaceMap α) (x a : Node α) : Prop where
  before : [x, a].Sublist m.atomsInOrder
  beside : Beside ratio x a
  nearest : ∀ y, [x, y].Sublist m.atomsInOrder → [y, a].Sublist m.atomsInOrder →
    ¬Beside ratio y a

section

variable {t : Tolerances α} {ratio : α} {m : SurfaceMap α} {a x : Node α}
  {before after : List (Node α)}

theorem besides_eq_true {n other : Node α} :
    (!n.related other && sameLine ratio n other) = true ↔ Beside ratio other n := by
  rw [Bool.and_eq_true, Bool.not_eq_true']
  rfl

/-- The pass looks for the predecessor from the minus backwards. -/
theorem isPredecessor_iff (hnodup : m.atomsInOrder.Nodup)
    (hsplit : m.atomsInOrder = before ++ a :: after) : m.IsPredecessor ratio x a ↔
      before.reverse.find? (fun other => !a.related other && sameLine ratio a other) = some x := by
  rw [hsplit] at hnodup
  have hbefore : before.Nodup := (List.nodup_append.1 hnodup).1
  rw [← List.getLast?_filter, getLast?_filter_eq_some_iff hbefore, besides_eq_true]
  constructor
  · rintro ⟨hx, hbeside, hnearest⟩
    rw [hsplit, pair_sublist_split hnodup] at hx
    refine ⟨hx, hbeside, fun y hpair => Bool.eq_false_iff.2 fun hy => ?_⟩
    have hybefore : y ∈ before := hpair.subset (by simp)
    refine hnearest y ?_ ?_ (besides_eq_true.1 hy)
    · rw [hsplit]
      exact hpair.trans (List.sublist_append_left before _)
    · rw [hsplit]
      exact (pair_sublist_split hnodup).2 hybefore
  · rintro ⟨hx, hbeside, hnearest⟩
    refine ⟨?_, hbeside, fun y hxy hya hy => ?_⟩
    · rw [hsplit]
      exact (pair_sublist_split hnodup).2 hx
    · rw [hsplit, pair_sublist_split hnodup] at hya
      rw [hsplit, pair_sublist_before hnodup hx hya] at hxy
      have hfalse := hnearest y hxy
      rw [besides_eq_true.2 hy] at hfalse
      exact Bool.noConfusion hfalse

theorem IsPredecessor.unique (hnodup : m.atomsInOrder.Nodup) {y : Node α}
    (hx : m.IsPredecessor ratio x a) (hy : m.IsPredecessor ratio y a) : x = y := by
  obtain ⟨before, after, hsplit⟩ := List.append_of_mem (hx.before.subset (by simp : a ∈ [x, a]))
  rw [isPredecessor_iff hnodup hsplit] at hx hy
  exact Option.some.inj (hx.symm.trans hy)

/-- The atoms of a refined map are the refined atoms. -/
theorem atomsInOrder_enhance (t : Tolerances α) (hm : Placed m.root) :
    (m.enhance t).atomsInOrder = refined t (m.runPass t .widen).atomsInOrder := by
  have hplaced := placed_widen t hm
  have hdrawn := map_asDrawn_refined t (nodup_atomsInOrder hplaced)
  obtain ⟨g, hg, hrestore, hmap⟩ := exists_restore hplaced hdrawn
  rw [enhance_eq_restore, hrestore, atomsInOrder_mapNodes hg, hmap]

theorem nodup_atomsInOrder_enhance (t : Tolerances α) (hm : Placed m.root) :
    (m.enhance t).atomsInOrder.Nodup := by
  have hdistinct := nodup_atomsInOrder (placed_widen t hm)
  have hnumbers := congrArg (List.map Node.number) (map_asDrawn_refined t hdistinct)
  rw [List.map_map, List.map_map] at hnumbers
  rw [atomsInOrder_enhance t hm]
  refine List.Nodup.of_map Node.number ?_
  exact hnumbers.symm ▸ hdistinct

/-- In a refined map a minus is a sign if it has no predecessor, or one that opens an operand. -/
theorem kind_of_minus (t : Tolerances α) (hm : Placed m.root) (ha : a ∈ (m.enhance t).atoms)
    (hminus : isMinusGlyph (String.ofList a.glyphs) = true) :
    ((∀ x, ¬(m.enhance t).IsPredecessor t.minusOverlap x a) ∧ a.kind = .minusUnary) ∨
      ∃ x, (m.enhance t).IsPredecessor t.minusOverlap x a ∧
        a.kind = if x.kind.opensOperand then .minusUnary else .minusBinary := by
  have hnodup := nodup_atomsInOrder_enhance t hm
  have hresolved := resolveMinus_refined t (nodup_atomsInOrder (placed_widen t hm))
  rw [← atomsInOrder_enhance t hm] at hresolved
  obtain ⟨before, after, hsplit⟩ := List.append_of_mem ((sortBy_perm _ _).mem_iff.2 ha)
  change (m.enhance t).atomsInOrder = _ at hsplit
  have hkind : a.kind = minusKind t.minusOverlap before.reverse a := by
    rw [hsplit] at hresolved
    simpa using kind_of_resolved hresolved hminus
  rw [minusKind] at hkind
  cases hfind : before.reverse.find? fun other =>
      !a.related other && sameLine t.minusOverlap a other with
  | none =>
    rw [hfind] at hkind
    refine Or.inl ⟨fun x hx => ?_, hkind⟩
    rw [isPredecessor_iff hnodup hsplit, hfind] at hx
    exact absurd hx.symm (Option.some_ne_none x)
  | some x =>
    rw [hfind] at hkind
    exact Or.inr ⟨x, (isPredecessor_iff hnodup hsplit).2 hfind, hkind⟩

theorem kind_eq_minusBinary_iff (t : Tolerances α) (hm : Placed m.root)
    (ha : a ∈ (m.enhance t).atoms) (hminus : isMinusGlyph (String.ofList a.glyphs) = true) :
    a.kind = .minusBinary ↔ ∃ x, (m.enhance t).IsPredecessor t.minusOverlap x a ∧
      x.kind.opensOperand = false := by
  rcases kind_of_minus t hm ha hminus with ⟨hnone, hkind⟩ | ⟨x, hx, hkind⟩
  · rw [hkind]
    exact ⟨fun h => absurd h Kind.noConfusion, fun ⟨x, hx, _⟩ => absurd hx (hnone x)⟩
  · have hunique : ∀ y, (m.enhance t).IsPredecessor t.minusOverlap y a → y = x := fun y hy =>
      hy.unique (nodup_atomsInOrder_enhance t hm) hx
    rw [hkind]
    cases hopens : x.kind.opensOperand with
    | true =>
      refine ⟨fun h => absurd h Kind.noConfusion, fun ⟨y, hy, hclosed⟩ => ?_⟩
      rw [hunique y hy, hopens] at hclosed
      exact absurd hclosed.symm Bool.false_ne_true
    | false => exact ⟨fun _ => ⟨x, hx, hopens⟩, fun _ => rfl⟩

theorem kind_eq_minusUnary_iff (t : Tolerances α) (hm : Placed m.root)
    (ha : a ∈ (m.enhance t).atoms) (hminus : isMinusGlyph (String.ofList a.glyphs) = true) :
    a.kind = .minusUnary ↔ ∀ x, (m.enhance t).IsPredecessor t.minusOverlap x a →
      x.kind.opensOperand = true := by
  have hbinary := kind_eq_minusBinary_iff t hm ha hminus
  constructor
  · intro hunary x hx
    refine Bool.of_not_eq_false fun hclosed => ?_
    rw [hunary] at hbinary
    exact absurd (hbinary.2 ⟨x, hx, hclosed⟩) Kind.noConfusion
  · intro hopens
    rcases kind_of_minus t hm ha hminus with ⟨-, hkind⟩ | ⟨x, hx, hkind⟩
    · exact hkind
    · rw [hkind, hopens x hx, if_pos rfl]

end

/-! ## After a fraction -/

/-- A node stands right after a fraction: to the right of its bar, with the middle beside the
bar and no other atom in between. -/
structure RightAfter (m : SurfaceMap α) (b a : Node α) : Prop where
  bar : b ∈ m.atoms
  kind : b.kind = .fracBar
  apart : b.box.right ≤ a.box.left
  top : b.box.top ≤ a.box.midY
  bottom : a.box.midY ≤ b.box.bottom
  adjacent : ∀ x ∈ m.atoms, b.box.right ≤ x.box.left → x.box.right ≤ a.box.left → x = a ∨ x = b

/-- Two boxes, one of which contains the middle of the other in height, share half the height
of the lower one. -/
theorem half_smaller_le_verticalOverlap {a b : Box Rat} (ha : a.top < a.bottom)
    (hb : b.top < b.bottom) (htop : b.top ≤ a.midY) (hbottom : a.midY ≤ b.bottom) :
    0 < Coordinate.smaller a.height b.height ∧
      Coordinate.smaller a.height b.height / 2 ≤ a.verticalOverlap b := by
  have hmid : a.midY = (a.top + a.bottom) / 2 := rfl
  rw [hmid] at htop hbottom
  rw [Box.height_of_lt ha, Box.height_of_lt hb, Box.verticalOverlap, Coordinate.smaller_eq_min,
    Coordinate.smaller_eq_min, Coordinate.larger_eq_max]
  have hleft := min_le_left (a.bottom - a.top) (b.bottom - b.top)
  have hright := min_le_right (a.bottom - a.top) (b.bottom - b.top)
  refine ⟨lt_min (by linarith) (by linarith), ?_⟩
  rcases min_choice a.bottom b.bottom with hmin | hmin <;>
    rcases max_choice a.top b.top with hmax | hmax <;> rw [hmin, hmax] <;> linarith

/-- The middle of a minus beside the bar is overlap enough where nothing is rounded. -/
theorem RightAfter.beside {m : SurfaceMap Rat} {a b : Node Rat} (h : m.RightAfter b a)
    (htall : b.box.top < b.box.bottom) (hheight : a.box.top < a.box.bottom)
    (hunrelated : a.related b = false) {ratio : Rat} (hratio : ratio < 1 / 2) :
    Beside ratio b a := by
  obtain ⟨hpos, hhalf⟩ := half_smaller_le_verticalOverlap hheight htall h.top h.bottom
  refine ⟨hunrelated, decide_eq_true ?_⟩
  nlinarith

/-- The upper left corner of every atom is given by numbers. -/
def Located (m : SurfaceMap α) : Prop :=
  ∀ n ∈ m.atoms, IsNumber n.box.left ∧ IsNumber n.box.top

instance (m : SurfaceMap α) : Decidable m.Located :=
  inferInstanceAs (Decidable (∀ n ∈ m.atoms, _))

theorem located_rat (m : SurfaceMap Rat) : m.Located :=
  fun _ _ => ⟨isNumber_rat _, isNumber_rat _⟩

section

variable [Orders α] {m : SurfaceMap α} {a b x y : Node α}

/-- The spatial order ranks the atoms of a map. -/
theorem Located.ranks (h : m.Located) :
    Ranks fun a b : {n // n ∈ m.atoms} => Coordinate.before (corner a.1) (corner b.1) :=
  Coordinate.ranks_of_pair (fun n : {n // n ∈ m.atoms} => corner n.1) fun n => h n n.2

theorem Located.left_le_of_sublist (h : m.Located) (hxy : [x, y].Sublist m.atomsInOrder) :
    x.box.left ≤ y.box.left := by
  have hmem : ∀ n ∈ m.atomsInOrder, n ∈ m.atoms := fun n => (sortBy_perm _ m.atoms).mem_iff.1
  have hx := h x (hmem x (hxy.subset (by simp)))
  have hy := h y (hmem y (hxy.subset (by simp)))
  have hpair := List.pairwise_iff_forall_sublist.1 (ascends_sortBy_of_mem h.ranks) hxy
  exact ((Coordinate.before_eq_false_iff hy hx).1 hpair).1

/-- A minus right after a fraction and beside its bar has a predecessor: the bar, or an atom
that starts above or below the bar or reaches into the minus. -/
theorem RightAfter.exists_isPredecessor (h : m.RightAfter b a) (hlocated : m.Located)
    (hnodup : m.atomsInOrder.Nodup) (ha : a ∈ m.atoms) (hwide : b.box.left < b.box.right)
    {ratio : α} (hbeside : Beside ratio b a) : ∃ x, m.IsPredecessor ratio x a ∧
      (x = b ∨ b.box.left ≤ x.box.left ∧ x.box.left ≤ a.box.left ∧
        (x.box.left < b.box.right ∨ ¬x.box.right ≤ a.box.left)) := by
  have hleft : b.box.left < a.box.left := Compares.lt_of_lt_of_le hwide h.apart
  have hne : b ≠ a := by
    rintro rfl
    exact Compares.irrefl _ hleft
  have hmem : ∀ n, n ∈ m.atomsInOrder ↔ n ∈ m.atoms := fun n => (sortBy_perm _ m.atoms).mem_iff
  have hba : [b, a].Sublist m.atomsInOrder := by
    refine (pair_sublist_or ((hmem b).2 h.bar) ((hmem a).2 ha) hne).resolve_right fun hab => ?_
    exact Compares.not_lt_of_le (hlocated.left_le_of_sublist hab) hleft
  obtain ⟨before, after, hsplit⟩ := List.append_of_mem ((hmem a).2 ha)
  have hbbefore : b ∈ before := by
    rw [hsplit] at hba hnodup
    exact (pair_sublist_split hnodup).1 hba
  have hfound : (before.reverse.find? fun other =>
      !a.related other && sameLine ratio a other).isSome = true :=
    List.find?_isSome.2 ⟨b, List.mem_reverse.2 hbbefore, besides_eq_true.2 hbeside⟩
  obtain ⟨x, hx⟩ := Option.isSome_iff_exists.1 hfound
  have hpredecessor := (isPredecessor_iff hnodup hsplit).2 hx
  refine ⟨x, hpredecessor, or_iff_not_imp_left.2 fun hxb => ?_⟩
  have hxmem : x ∈ m.atoms := (hmem x).1 (hpredecessor.before.subset (by simp))
  have hbx : [b, x].Sublist m.atomsInOrder := by
    refine (pair_sublist_or ((hmem b).2 h.bar) ((hmem x).2 hxmem) (Ne.symm hxb)).resolve_right ?_
    exact fun hturned => hpredecessor.nearest b hturned hba hbeside
  refine ⟨hlocated.left_le_of_sublist hbx, hlocated.left_le_of_sublist hpredecessor.before, ?_⟩
  refine Decidable.or_iff_not_not_and_not.2 fun ⟨hpast, hreaches⟩ => ?_
  rw [Coordinate.not_lt_iff (hlocated x hxmem).1 (Orders.isNumber h.apart).1] at hpast
  rcases h.adjacent x hxmem hpast (Decidable.not_not.1 hreaches) with rfl | rfl
  · exact absurd (hnodup.sublist hpredecessor.before) (by simp)
  · exact hxb rfl

end

/-- A minus right after a fraction is an operation exactly when its predecessor opens no
operand.  Beside a wide bar it has a predecessor: the bar, or an atom that starts above or
below the bar or reaches into the minus.  With exact coordinates it is beside every bar that
has a height and that it is not related to. -/
theorem minus_after_bar :
    (∀ (α : Type) [Coordinate α] [Orders α] (m : SurfaceMap α) (a b : Node α),
      let e := m.enhance .standard
      let ratio := (Tolerances.standard (α := α)).minusOverlap
      Placed m.root → a ∈ e.atoms → isMinusGlyph (String.ofList a.glyphs) = true →
        e.RightAfter b a →
          (a.kind = .minusBinary ↔ ∃ x, e.IsPredecessor ratio x a ∧ x.kind.opensOperand = false) ∧
          (a.kind = .minusUnary ↔ ∀ x, e.IsPredecessor ratio x a → x.kind.opensOperand = true) ∧
          (e.Located → b.box.left < b.box.right → Beside ratio b a →
            ∃ x, e.IsPredecessor ratio x a ∧
              (x = b ∨ b.box.left ≤ x.box.left ∧ x.box.left ≤ a.box.left ∧
                (x.box.left < b.box.right ∨ ¬x.box.right ≤ a.box.left)))) ∧
    ∀ (m : SurfaceMap Rat) (a b : Node Rat), m.RightAfter b a → b.box.top < b.box.bottom →
      a.box.top < a.box.bottom → a.related b = false →
        m.Located ∧ Beside Tolerances.standard.minusOverlap b a := by
  constructor
  · intro α _ _ m a b e ratio hm ha hminus h
    exact ⟨kind_eq_minusBinary_iff .standard hm ha hminus,
      kind_eq_minusUnary_iff .standard hm ha hminus, fun hlocated hwide hbeside =>
        h.exists_isPredecessor hlocated (nodup_atomsInOrder_enhance .standard hm) ha hwide hbeside⟩
  · intro m a b h htall hheight hunrelated
    have hratio : (Tolerances.standard (α := Rat)).minusOverlap < 1 / 2 := by
      show (1 : Rat) / 4 < 1 / 2
      norm_num
    exact ⟨located_rat m, h.beside htall hheight hunrelated hratio⟩

/-- One half minus three, with the one and the two far from the bar. -/
def tallDifference : Layout Rat :=
  let page : Box Rat := ⟨0, 0, 34, 50⟩
  .node ⟨["katex"], "", page, []⟩ [.node ⟨[formulaClass], "", page, []⟩
    [.node ⟨[groupClass], "", page, []⟩
      [.node ⟨["mfrac"], "", ⟨0, 0, 10, 50⟩, []⟩
        [.node ⟨["mord"], "1", ⟨0, 0, 10, 10⟩, []⟩ [],
         .node ⟨["frac-line"], "", ⟨0, 24, 10, 26⟩, []⟩ [],
         .node ⟨["mord"], "2", ⟨0, 40, 10, 50⟩, []⟩ []],
       .node ⟨["mbin"], "−", ⟨12, 20, 22, 30⟩, []⟩ [],
       .node ⟨["mord"], "3", ⟨24, 20, 34, 30⟩, []⟩ []]]]

/-- Its refined map. -/
def tallMap : SurfaceMap Rat := (build .standard [] tallDifference).enhance .standard

theorem exists_rightAfter_tallMap : ∃ a ∈ tallMap.atoms, ∃ b ∈ tallMap.atoms,
    isMinusGlyph (String.ofList a.glyphs) = true ∧ tallMap.RightAfter b a ∧
      a.kind = .minusUnary ∧ b.box.left < b.box.right ∧ b.box.top < b.box.bottom ∧
      a.box.top < a.box.bottom ∧ a.related b = false := by
  have hfound : ∃ a ∈ tallMap.atoms, ∃ b ∈ tallMap.atoms,
      isMinusGlyph (String.ofList a.glyphs) = true ∧
        (b.kind = .fracBar ∧ b.box.right ≤ a.box.left ∧ b.box.top ≤ a.box.midY ∧
          a.box.midY ≤ b.box.bottom ∧ ∀ x ∈ tallMap.atoms, b.box.right ≤ x.box.left →
            x.box.right ≤ a.box.left → x = a ∨ x = b) ∧
        a.kind = .minusUnary ∧ b.box.left < b.box.right ∧ b.box.top < b.box.bottom ∧
        a.box.top < a.box.bottom ∧ a.related b = false := by
    decide +kernel
  obtain ⟨a, ha, b, hb, hminus, ⟨hkind, hapart, htop, hbottom, hadjacent⟩, hrest⟩ := hfound
  exact ⟨a, ha, b, hb, hminus, ⟨hb, hkind, hapart, htop, hbottom, hadjacent⟩, hrest⟩

/-- The minus comes right after the bar, and has a predecessor that opens an operand. -/
theorem tallMap_minus_after_bar : ∃ a ∈ tallMap.atoms, ∃ b ∈ tallMap.atoms,
    tallMap.RightAfter b a ∧ a.kind = .minusUnary ∧
      ∃ x, tallMap.IsPredecessor (Tolerances.standard (α := Rat)).minusOverlap x a ∧
        x.kind.opensOperand = true := by
  obtain ⟨a, ha, b, hb, hminus, hafter, hunary, hwide, htall, hheight, hunrelated⟩ :=
    exists_rightAfter_tallMap
  obtain ⟨-, hopens, hexists⟩ := minus_after_bar.1 Rat _ a b
    (placed_build .standard [] tallDifference) ha hminus hafter
  obtain ⟨hlocated, hbeside⟩ := minus_after_bar.2 _ a b hafter htall hheight hunrelated
  obtain ⟨x, hx, -⟩ := hexists hlocated hwide hbeside
  exact ⟨a, ha, b, hb, hafter, hunary, x, hx, hopens.1 hunary x hx⟩

/-- A minus right after a fraction need not be an operation. -/
theorem not_forall_minusBinary :
    ¬ ∀ m : SurfaceMap Rat, Placed m.root → ∀ a ∈ (m.enhance .standard).atoms,
      isMinusGlyph (String.ofList a.glyphs) = true →
        ∀ b, (m.enhance .standard).RightAfter b a → a.kind = .minusBinary := by
  intro h
  obtain ⟨a, ha, b, -, hminus, hafter, hunary, -⟩ := exists_rightAfter_tallMap
  have hbinary := h _ (placed_build .standard [] tallDifference) a ha hminus b hafter
  rw [hunary] at hbinary
  exact absurd hbinary Kind.noConfusion

end SurfaceMap
end FormulaMap

/-
When the two operands of an operator are one node.

The operator itself is never an operand: the path of an operation is below neither of its
operands, and the search beside the operator leaves it out (`ne_operator`).  Nor are the
operands one node when both are found in the same way.  No path is below both, and an atom
that is wide is not on both sides of a centre.  But each side is searched by itself.  When
only one of them is found by path, the other is searched for among all atoms beside the
operator, the one that has been found included; and the operands are one node exactly when
that is the nearest there (`operandOn_left_eq_right_iff`).  For this the first operand has
to stand on the side of the second, as in `lonelyTwo`.
-/
import FormulaMap.Proofs.Layout.Mapping
import FormulaMap.Proofs.Surface.Delivery
import FormulaMap.Proofs.Surface.Idempotence
import FormulaMap.Proofs.Surface.Operands
import FormulaMap.Proofs.Surface.Visits

namespace FormulaMap

/-! ## Wide boxes -/

namespace Box

variable {b : Box Rat}

theorem relativeTo_wide (h : b.left < b.right) (origin : Box Rat) :
    (b.relativeTo origin).left < (b.relativeTo origin).right := by
  show b.left - origin.left < b.right - origin.left
  linarith

theorem slice_wide (h : b.left < b.right) (index count : Nat) :
    (b.slice index count).left < (b.slice index count).right := by
  unfold slice
  split
  · exact h
  · next hcount =>
    have hpos : (0 : Rat) < (count : Rat) := Nat.cast_pos.2 (Nat.pos_of_ne_zero hcount)
    have hstep : 0 < (b.right - b.left) / (count : Rat) := div_pos (by linarith) hpos
    exact lt_add_of_pos_right _ hstep

end Box

/-- Every element has a width. -/
def Layout.Wide (layout : Layout Rat) : Prop := ∀ e ∈ layout.preorder, e.box.left < e.box.right

instance (layout : Layout Rat) : Decidable layout.Wide :=
  inferInstanceAs (Decidable (∀ e ∈ layout.preorder, _))

namespace SurfaceMap

open Enhance Join Operands

/-- Every atom has a width. -/
def Wide (m : SurfaceMap Rat) : Prop := ∀ n ∈ m.atoms, n.box.left < n.box.right

theorem wide_ownDrafts (t : Tolerances Rat) (origin : Box Rat) (here : Address) {l : Layout Rat}
    (hl : l.value.box.left < l.value.box.right) :
    ∀ d ∈ ownDrafts t origin here l, d.box.left < d.box.right := by
  cases l with
  | node e ts =>
    have hwide := Box.relativeTo_wide hl origin
    intro d hd
    rw [ownDrafts.eq_def] at hd
    dsimp only at hd
    split at hd
    · exact absurd hd List.not_mem_nil
    · split at hd
      · cases ts with
        | nil =>
          obtain ⟨s, hs, rfl⟩ := List.mem_map.1 hd
          obtain ⟨segment, -, rfl⟩ := List.mem_map.1 hs
          exact Box.slice_wide hwide _ _
        | cons u us => exact absurd hd List.not_mem_nil
      · split at hd
        · exact absurd hd List.not_mem_nil
        · rw [List.mem_singleton.1 hd]
          exact hwide

theorem value_mem_of_mem_visits {α : Type} {container : Address} {layout : Layout α}
    {p : Address × Layout α} (hp : p ∈ layout.visits container) : p.2.value ∈ layout.preorder := by
  obtain ⟨g, hg, hin⟩ := List.mem_flatMap.1 hp
  obtain ⟨b, -, -, hgroup⟩ := Layout.reachesBelow_of_mem_groups hg
  obtain ⟨a, -, hat⟩ := (Tree.mem_places g.1 g.2 p).1 hin
  refine Tree.value_mem_of_at? (a := b ++ a) ?_
  rw [Tree.at?_append, hgroup]
  exact hat

/-- What is made from wide elements is wide. -/
theorem wide_build (t : Tolerances Rat) (container : Address) {layout : Layout Rat}
    (h : layout.Wide) : (build t container layout).Wide := by
  intro n hn
  obtain ⟨hnode, hatom⟩ := List.mem_filter.1 hn
  rcases List.mem_cons.1 hnode with rfl | hnode
  · exact absurd hatom Bool.false_ne_true
  · obtain ⟨d, hd, above, k, rfl⟩ := Draft.exists_of_mem_placeAll [0] 1 _ n hnode
    change d ∈ Tree.preorderAll (drafts t container layout) at hd
    rw [preorderAll_drafts] at hd
    obtain ⟨p, hp, hown⟩ := List.mem_flatMap.1 hd
    exact wide_ownDrafts t _ p.1 (h _ (value_mem_of_mem_visits hp)) d hown

/-! ## Sides that are kept -/

/-- The node has the left and the right edge that it had. -/
structure KeepsSides (a b : Node Rat) : Prop where
  number : b.number = a.number
  above : b.above = a.above
  atom : b.atom = a.atom
  left : b.box.left = a.box.left
  right : b.box.right = a.box.right

theorem KeepsSides.trans (a b c : Node Rat) (h : KeepsSides a b) (h' : KeepsSides b c) :
    KeepsSides a c :=
  ⟨h'.number.trans h.number, h'.above.trans h.above, h'.atom.trans h.atom, h'.left.trans h.left,
    h'.right.trans h.right⟩

theorem keepsSides_of_asDrawn {a b : Node Rat} (h : b.asDrawn = a.asDrawn) : KeepsSides a b :=
  ⟨(congrArg Node.number h :), (congrArg Node.above h :), (congrArg Node.atom h :),
    (congrArg (fun n : Node Rat => n.box.left) h :),
    (congrArg (fun n : Node Rat => n.box.right) h :)⟩

theorem keepsSides_of_rewritten {a b : Node Rat} (h : Rewritten a b) : KeepsSides a b := by
  cases h <;> exact ⟨rfl, rfl, rfl, rfl, rfl⟩

theorem keepsSides_widenBar (margin height : Rat) (n : Node Rat) :
    KeepsSides n (widenBar margin height n) := by
  unfold widenBar
  split <;> exact ⟨rfl, rfl, rfl, rfl, rfl⟩

variable {m : SurfaceMap Rat}

theorem keepsSides_enhance (t : Tolerances Rat) (hm : Placed m.root) :
    Changes KeepsSides m (m.enhance t) := by
  have hwidened : Changes KeepsSides m (m.runPass t .widen) := by
    refine ⟨_, runPass_widen t hm, fun n _ => ?_⟩
    split
    · exact keepsSides_widenBar _ _ n
    · exact ⟨rfl, rfl, rfl, rfl, rfl⟩
  have hplaced := placed_widen t hm
  obtain ⟨g, hg, hrestore, -⟩ :=
    exists_restore hplaced (map_asDrawn_refined t (nodup_atomsInOrder hplaced))
  rw [enhance_eq_restore, hrestore]
  exact hwidened.trans KeepsSides.trans ⟨g, rfl, fun n _ => keepsSides_of_asDrawn (hg n)⟩

theorem keepsSides_joinOption (t : Tolerances Rat) (e : Option Expr) (m : SurfaceMap Rat) :
    Changes KeepsSides m (m.joinOption t e).1 := by
  cases e with
  | none => exact .refl (fun _ => ⟨rfl, rfl, rfl, rfl, rfl⟩) m
  | some e => exact (rewritten_join t e m).mono fun _ _ => keepsSides_of_rewritten

theorem Changes.wide {m' : SurfaceMap Rat} (h : Changes KeepsSides m m') (hm : m.Wide) :
    m'.Wide := by
  intro n' hn'
  obtain ⟨hnode, hatom⟩ := List.mem_filter.1 hn'
  obtain ⟨n, hn, hkeeps⟩ := h.exists_of_mem_nodes hnode
  have hwide := hm n (List.mem_filter.2 ⟨hn, hkeeps.atom ▸ hatom⟩)
  rw [hkeeps.left, hkeeps.right]
  exact hwide

theorem wide_joined (t : Tolerances Rat) (container : Address) {layout : Layout Rat}
    (h : layout.Wide) (e : Option Expr) :
    (((build t container layout).enhance t).joinOption t e).1.Wide :=
  (keepsSides_joinOption t e _).wide
    ((keepsSides_enhance t (placed_build t container layout)).wide (wide_build t container h))

/-! ## One operand -/

/-- No atom has a path that `path` covers. -/
def Lacks (m : SurfaceMap Rat) (path : String) : Prop :=
  ∀ x ∈ m.atoms, ∀ q ∈ x.joined?, Path.covers path q = false

section
variable {t : Tolerances Rat} {side : Side} {p path : String} {a b operator : Node Rat}

/-- An operand is found by its path, or else beside the operator. -/
theorem operandOn_eq_some_iff : m.operandOn t side p = some a ↔
    m.FoundByPath (Path.child p side.step) a ∨ m.Lacks (Path.child p side.step) ∧
      ∃ operator, IsFirst (fun x => x.path = some p) m.atoms operator ∧
        m.IsNearest t side operator a := by
  rw [operandOn, Option.or_eq_some_iff, byPath_eq_some_iff, byPath_eq_none_iff,
    Option.bind_eq_some_iff]
  simp only [head?_atomsAt_eq_some_iff, nearest_eq_some_iff]
  rfl

theorem FoundByPath.exists_covers (h : m.FoundByPath path a) :
    a ∈ m.atoms ∧ ∃ q ∈ a.joined?, Path.covers path q = true := by
  rcases h with ⟨before, after, hsplit, ha, -⟩ | ⟨-, before, after, hsplit, ha, -⟩
  · exact ⟨by rw [hsplit]; simp, path, ha, Path.covers_iff.2 (Or.inl rfl)⟩
  · exact ⟨by rw [hsplit]; simp, ha⟩

/-- An atom is not found by the paths of both operands. -/
theorem FoundByPath.not_right (h : m.FoundByPath (Path.child p .left) a) :
    ¬m.FoundByPath (Path.child p .right) a := by
  intro h'
  obtain ⟨-, q, hq, hleft⟩ := h.exists_covers
  obtain ⟨-, q', hq', hright⟩ := h'.exists_covers
  obtain rfl := Option.some.inj (hq.symm.trans hq')
  rw [Path.covers_right_of_left hleft] at hright
  exact Bool.false_ne_true hright

theorem eq_of_isFirst (ha : IsFirst (fun x => x.path = some p) m.atoms a)
    (hb : IsFirst (fun x => x.path = some p) m.atoms b) : a = b := by
  rw [← head?_atomsAt_eq_some_iff] at ha hb
  exact Option.some.inj (ha.symm.trans hb)

/-- The first atom with the path of the operator is no operand of it. -/
theorem ne_operator (ha : m.operandOn t side p = some a)
    (hoperator : IsFirst (fun x => x.path = some p) m.atoms operator) : a ≠ operator := by
  rintro rfl
  rcases operandOn_eq_some_iff.1 ha with hfound | ⟨-, operator, hfirst, hnearest⟩
  · obtain ⟨-, q, hq, hcovers⟩ := hfound.exists_covers
    obtain ⟨before, after, -, hpath, -⟩ := hoperator
    have hpq : some p = some q := hpath.symm.trans (Option.filter_eq_some_iff.1 hq).1
    rw [← Option.some.inj hpq, Path.covers_child_self] at hcovers
    exact Bool.false_ne_true hcovers
  · rw [eq_of_isFirst hfirst hoperator] at hnearest
    exact hnearest.candidate.other rfl

/-! ## Two operands -/

/-- A wide atom is nearest on one side at most. -/
theorem IsNearest.not_right (hwide : m.Wide) (h : m.IsNearest t .left operator a) :
    ¬m.IsNearest t .right operator a := by
  intro h'
  have hleft : a.box.right ≤ operator.box.centerX := h.candidate.holds
  have hright : operator.box.centerX ≤ a.box.left := h'.candidate.holds
  have hatom := hwide a h.mem
  linarith

/-- The operands are one node exactly when it is found by the path of one of them, nothing is
found by the path of the other, and it is the nearest there. -/
theorem operandOn_left_eq_right_iff (hwide : m.Wide) (ha : m.operandOn t .left p = some a)
    (hb : m.operandOn t .right p = some b) : a = b ↔
      ∃ (side : Side) (operator : Node Rat), m.FoundByPath (Path.child p side.step) a ∧
        m.Lacks (Path.child p side.other.step) ∧
          IsFirst (fun x => x.path = some p) m.atoms operator ∧
            m.IsNearest t side.other operator a := by
  constructor
  · rintro rfl
    rcases operandOn_eq_some_iff.1 ha with hleft | ⟨hlacks, operator, hfirst, hnearest⟩ <;>
      rcases operandOn_eq_some_iff.1 hb with hright | ⟨hlacks', operator', hfirst', hnearest'⟩
    · exact absurd hright hleft.not_right
    · exact ⟨.left, operator', hleft, hlacks', hfirst', hnearest'⟩
    · exact ⟨.right, operator, hright, hlacks, hfirst, hnearest⟩
    · rw [eq_of_isFirst hfirst' hfirst] at hnearest'
      exact absurd hnearest' (hnearest.not_right hwide)
  · rintro ⟨side, operator, hfound, hlacks, hfirst, hnearest⟩
    cases side with
    | left =>
      have hright : m.operandOn t .right p = some a :=
        operandOn_eq_some_iff.2 (Or.inr ⟨hlacks, operator, hfirst, hnearest⟩)
      exact Option.some.inj (hright.symm.trans hb)
    | right =>
      have hright : m.operandOn t .right p = some a := operandOn_eq_some_iff.2 (Or.inl hfound)
      exact Option.some.inj (hright.symm.trans hb)

end

/-! ## Joined maps -/

/-- On the map of a layout of wide elements, neither operand of an operator is the first atom
with its path, and the operands are two nodes unless one of them is found by its path on the
side of the other, where nothing is found by path and nothing is nearer. -/
theorem operands_distinct (t : Tolerances Rat) (container : Address) {layout : Layout Rat}
    (hwide : layout.Wide) (e : Option Expr) {p : String} {pair : Operands Rat} {a b : Node Rat} :
    let m := (((build t container layout).enhance t).joinOption t e).1
    m.operands? t p = some pair → pair.left = some a → pair.right = some b →
      (∀ operator, IsFirst (fun x => x.path = some p) m.atoms operator →
        a ≠ operator ∧ b ≠ operator) ∧
      (a = b ↔ ∃ (side : Side) (operator : Node Rat), m.FoundByPath (Path.child p side.step) a ∧
        m.Lacks (Path.child p side.other.step) ∧
          IsFirst (fun x => x.path = some p) m.atoms operator ∧
            m.IsNearest t side.other operator a) := by
  intro m hpair ha hb
  have hp : p ≠ "" := by
    rintro rfl
    exact absurd hpair.symm (Option.some_ne_none pair)
  rw [operands?_eq t hp, Option.some.injEq] at hpair
  rw [← hpair] at ha hb
  exact ⟨fun operator hoperator => ⟨ne_operator ha hoperator, ne_operator hb hoperator⟩,
    operandOn_left_eq_right_iff (wide_joined t container hwide e) ha hb⟩

/-- One and two. -/
def oneAndTwo : Expr := .binary .add (.numeral "1" none) (.numeral "2" none) none

/-- The sum typeset without the one. -/
def lonelyTwo : Layout Rat :=
  let page : Box Rat := ⟨0, 0, 20, 10⟩
  .node ⟨["katex"], "", page, []⟩ [.node ⟨[formulaClass], "", page, []⟩
    [.node ⟨[groupClass], "", page, []⟩
      [.node ⟨["mbin"], "+", ⟨0, 0, 10, 10⟩, []⟩ [],
       .node ⟨["mord"], "2", ⟨10, 0, 20, 10⟩, []⟩ []]]]

/-- The two is paired with the one of the expression, so that its path is that of the left
operand; and there is nothing else on the right of the plus. -/
theorem lonelyTwo_operands : lonelyTwo.Wide ∧ ∃ pair a,
    (((build .standard [] lonelyTwo).enhance .standard).joinOption .standard
      (some oneAndTwo.assignPaths)).1.operands? .standard "root" = some pair ∧
        pair.left = some a ∧ pair.right = some a := by
  have hpair : ∃ pair ∈ (((build .standard [] lonelyTwo).enhance .standard).joinOption .standard
      (some oneAndTwo.assignPaths)).1.operands? .standard "root",
        pair.left.isSome = true ∧ pair.right = pair.left := by
    decide +kernel
  obtain ⟨pair, hpair, hsome, hsame⟩ := hpair
  obtain ⟨a, ha⟩ := Option.isSome_iff_exists.1 hsome
  exact ⟨by decide +kernel, pair, a, hpair, ha, hsame.trans ha⟩

theorem lonelyTwo_found_and_nearest : ∃ (a : Node Rat) (side : Side) (operator : Node Rat),
    let m := (((build .standard [] lonelyTwo).enhance .standard).joinOption .standard
      (some oneAndTwo.assignPaths)).1
    m.FoundByPath (Path.child "root" side.step) a ∧ m.Lacks (Path.child "root" side.other.step) ∧
      IsFirst (fun x => x.path = some "root") m.atoms operator ∧
        m.IsNearest .standard side.other operator a := by
  obtain ⟨hwide, pair, a, hpair, hleft, hright⟩ := lonelyTwo_operands
  have hsame := (operands_distinct .standard [] hwide (some oneAndTwo.assignPaths) hpair hleft
    hright).2
  obtain ⟨side, operator, hfound⟩ := hsame.1 rfl
  exact ⟨a, side, operator, hfound⟩

/-- The operands of an operator can be one node. -/
theorem not_forall_operands_distinct :
    ¬ ∀ (layout : Layout Rat) (e : Expr) (p : String) (pair : Operands Rat) (a b : Node Rat),
      layout.Wide →
        (((build .standard [] layout).enhance .standard).joinOption .standard
          (some e.assignPaths)).1.operands? .standard p = some pair →
            pair.left = some a → pair.right = some b → a ≠ b := by
  intro h
  obtain ⟨hwide, pair, a, hpair, hleft, hright⟩ := lonelyTwo_operands
  exact h lonelyTwo oneAndTwo "root" pair a a hwide hpair hleft hright rfl

end SurfaceMap
end FormulaMap

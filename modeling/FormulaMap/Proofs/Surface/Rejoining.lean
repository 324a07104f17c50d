/-
Joining a map again.

The steps of joining are read off the map without paths, which joining does not change, so
a second run goes through the same steps as the first (`join_eq`).  The leaves of any two
steps are apart, so that each step is still done when the last one is (`done_foldl_run`),
and the second run has nothing to write.
-/
import FormulaMap.Proofs.Surface.Delivery
import FormulaMap.Proofs.Surface.Fractions
import FormulaMap.Proofs.Surface.JoinSteps
import FormulaMap.Proofs.Surface.Linearization

namespace FormulaMap

variable {α : Type}

namespace Join

open SurfaceMap

/-! ## Pairs are steps -/

section
variable {m base : SurfaceMap α}

theorem joinNumeral_eq (hm : m.bare = base) {d : NumeralDescriptor} (hd : d.path ≠ "")
    (leaf : Node α) : joinNumeral d leaf m = (Step.numeral d leaf.bare).run base m := by
  have hwritten := bare_eq_of_later (Step.later_write (s := .numeral d leaf) (m := m) hd)
  unfold joinNumeral fillNumbersAbove
  rw [update_eq_updateAll]
  exact congrArg (updateAll · _ _) (enclosing_eq (hwritten.trans hm) (fun _ => rfl) leaf)

theorem joinOperator_eq (hm : m.bare = base) (d : OperatorDescriptor) (rank : Nat)
    (leaf : Node α) : joinOperator d rank leaf m = (Step.operator d rank leaf.bare).run base m := by
  unfold joinOperator
  rw [update_eq_updateAll]
  exact congrArg (updateAll · _ _) (enclosing_eq hm (fun _ => rfl) leaf)

theorem joinMixed_eq (hdistinct : (m.nodes.map (·.number)).Nodup) (hm : m.bare = base)
    {atoms : List (Node α)} (hatoms : atoms.map Node.bare = base.atoms) {d : MixedDescriptor}
    (hd : d.path ≠ "") (leaf : Node α) :
    joinMixed atoms d leaf m = (Step.mixed d leaf.bare).run base m := by
  have hwritten := bare_eq_of_later (Step.later_write (s := .mixed d leaf.bare) (m := m) hd)
  have hdistinct' := nodup_numbers hwritten hdistinct
  have hparts := bare_eq_of_later (Step.later_parts (s := .mixed d leaf.bare) base hd hdistinct').1
  have hsame : ∀ m', (atoms.filter fun a => a.mixedOwner? == some leaf.id).foldl
      (fun m part => joinPart d.path part m) m' =
        ((Step.mixed d leaf.bare).parts base).foldl (fun m part => joinPart d.path part m) m' := by
    intro m'
    rw [Step.parts, ← hatoms, List.filter_map, List.foldl_map]
    rfl
  unfold joinMixed fillNumbersAbove
  dsimp only
  rw [update_eq_updateAll, hsame]
  refine congrArg (updateAll · _ _) (enclosing_eq ?_ (fun _ => rfl) leaf)
  exact hparts.trans (hwritten.trans hm)

end

/-! ## Passes are steps one after another -/

def numeralSteps (leaves : List (Node α)) (e : Expr) : List (Step α) :=
  (numeralPairs leaves e).map fun p => .numeral p.1 p.2

def operatorSteps (leaves : List (Node α)) (e : Expr) : List (Step α) :=
  (operatorPairs leaves e.operators).map fun p => .operator p.1.1 p.1.2 p.2

def mixedSteps (leaves : List (Node α)) (e : Expr) : List (Step α) :=
  (mixedPairs leaves e).map fun p => .mixed p.1 p.2

def steps (leaves : List (Node α)) (e : Expr) : List (Step α) :=
  numeralSteps leaves e ++ operatorSteps leaves e ++ mixedSteps leaves e

def stepCounts (leaves : List (Node α)) (e : Expr) : JoinSummary :=
  ⟨(numeralSteps leaves e).length, (operatorSteps leaves e).length, (mixedSteps leaves e).length⟩

section
variable {leaves : List (Node α)} {e : Expr} {m base : SurfaceMap α}

theorem numeralSteps_bare : numeralSteps (leaves.map Node.bare) e =
    (numeralPairs leaves e).map fun p => Step.numeral p.1 p.2.bare := by
  rw [numeralSteps, numeralPairs, numeralPairs, List.filter_map, List.zip_map_right, List.map_map]
  rfl

theorem operatorSteps_bare : operatorSteps (leaves.map Node.bare) e =
    (operatorPairs leaves e.operators).map fun p => Step.operator p.1.1 p.1.2 p.2.bare := by
  unfold operatorSteps operatorPairs bucketPairs
  rw [List.map_flatMap, List.map_flatMap]
  refine List.flatMap_congr fun b _ => ?_
  rw [List.filter_map, List.filter_map, List.zip_map_right, List.map_map]
  rfl

theorem mixedSteps_bare : mixedSteps (leaves.map Node.bare) e =
    (mixedPairs leaves e).map fun p => Step.mixed p.1 p.2.bare := by
  rw [mixedSteps, mixedPairs, mixedPairs, List.filter_map, List.zip_map_right, List.map_map]
  rfl

theorem mem_steps {s : Step α} (hs : s ∈ steps leaves e) :
    (∃ d n, s = .numeral d n ∧ (d, n) ∈ numeralPairs leaves e) ∨
      (∃ d rank n, s = .operator d rank n ∧ ((d, rank), n) ∈ operatorPairs leaves e.operators) ∨
      ∃ d n, s = .mixed d n ∧ (d, n) ∈ mixedPairs leaves e := by
  rcases List.mem_append.1 hs with hs | hs
  · rcases List.mem_append.1 hs with hs | hs
    · obtain ⟨⟨d, n⟩, hp, rfl⟩ := List.mem_map.1 hs
      exact Or.inl ⟨d, n, rfl, hp⟩
    · obtain ⟨⟨⟨d, rank⟩, n⟩, hp, rfl⟩ := List.mem_map.1 hs
      exact Or.inr (Or.inl ⟨d, rank, n, rfl, hp⟩)
  · obtain ⟨⟨d, n⟩, hp, rfl⟩ := List.mem_map.1 hs
    exact Or.inr (Or.inr ⟨d, n, rfl, hp⟩)

theorem path_ne_empty_of_mem_steps {s : Step α} (hs : s ∈ steps leaves e) : s.path ≠ "" := by
  rcases mem_steps hs with ⟨d, n, rfl, hp⟩ | ⟨d, rank, n, rfl, hp⟩ | ⟨d, n, rfl, hp⟩
  · exact Expr.path_ne_empty_of_mem_numerals (mem_numeralPairs hp).1
  · exact Expr.path_ne_empty_of_mem_operators (mem_operatorPairs hp).1
  · exact Expr.path_ne_empty_of_mem_mixedNumbers (mem_mixedPairs hp).1

theorem leaf_mem_of_mem_steps {s : Step α} (hs : s ∈ steps leaves e) : s.leaf ∈ leaves := by
  rcases mem_steps hs with ⟨d, n, rfl, hp⟩ | ⟨d, rank, n, rfl, hp⟩ | ⟨d, n, rfl, hp⟩
  · exact (mem_numeralPairs hp).2.1
  · exact (mem_operatorPairs hp).2.1
  · exact (mem_mixedPairs hp).2.1

/-- The kind of a leaf says in which pass it is, and there it is in one pair. -/
theorem eq_of_leaf_eq (hleaves : leaves.Nodup) {s s' : Step α} (hs : s ∈ steps leaves e)
    (hs' : s' ∈ steps leaves e) (hleaf : s.leaf = s'.leaf) : s = s' := by
  have hnumeral : ∀ {d n}, (d, n) ∈ numeralPairs leaves e → n.kind.isNumeric = true :=
    fun hp => (Bool.and_eq_true_iff.1 (mem_numeralPairs hp).2.2).1
  have hoperator : ∀ {d rank n}, ((d, rank), n) ∈ operatorPairs leaves e.operators →
      n.kind.isOperator = true := fun hp => (mem_operatorPairs hp).2.2.1
  have hmixed : ∀ {d n}, (d, n) ∈ mixedPairs leaves e → n.kind = .mixedNumber :=
    fun hp => (mem_mixedPairs hp).2.2
  rcases mem_steps hs with ⟨d, n, rfl, hp⟩ | ⟨d, rank, n, rfl, hp⟩ | ⟨d, n, rfl, hp⟩ <;>
    rcases mem_steps hs' with ⟨d', n', rfl, hp'⟩ | ⟨d', rank', n', rfl, hp'⟩ | ⟨d', n', rfl, hp'⟩ <;>
    obtain rfl : n = n' := hleaf
  · rw [eq_of_mem_numeralPairs_right hleaves hp hp']
  · have hkind := Kind.not_isOperator_of_isNumeric (hnumeral hp)
    exact absurd (hoperator hp') (hkind ▸ Bool.false_ne_true)
  · exact absurd (hmixed hp' ▸ hnumeral hp) (by decide)
  · have hkind := Kind.not_isOperator_of_isNumeric (hnumeral hp')
    exact absurd (hoperator hp) (hkind ▸ Bool.false_ne_true)
  · obtain ⟨rfl, rfl⟩ := Prod.mk.inj (eq_of_mem_operatorPairs_right hleaves hp hp')
    rfl
  · exact absurd (hmixed hp' ▸ hoperator hp) (by decide)
  · exact absurd (hmixed hp ▸ hnumeral hp') (by decide)
  · exact absurd (hmixed hp ▸ hoperator hp') (by decide)
  · rw [eq_of_mem_zip_right (hleaves.filter _) hp hp']

theorem foldl_run {β : Type} (xs : List β) (g : β → Step α) {f : SurfaceMap α → β → SurfaceMap α}
    (hg : ∀ x ∈ xs, (g x).path ≠ "")
    (hf : ∀ x ∈ xs, ∀ m', m'.bare = base → (m'.nodes.map (·.number)).Nodup →
      f m' x = (g x).run base m')
    (hdistinct : (m.nodes.map (·.number)).Nodup) (hm : m.bare = base) :
    xs.foldl f m = (xs.map g).foldl (fun m' s => s.run base m') m := by
  induction xs generalizing m with
  | nil => rfl
  | cons x xs ih =>
    have hrun := bare_eq_of_later (Step.run_spec base (hg x List.mem_cons_self) hdistinct).1
    rw [List.foldl_cons, List.map_cons, List.foldl_cons, hf x List.mem_cons_self m hm hdistinct]
    exact ih (fun y hy => hg y (List.mem_cons_of_mem x hy))
      (fun y hy => hf y (List.mem_cons_of_mem x hy)) (nodup_numbers hrun hdistinct)
      (hrun.trans hm)

theorem numerals_eq (hdistinct : (m.nodes.map (·.number)).Nodup) (hm : m.bare = base) :
    numerals leaves e.numerals m =
      ((numeralSteps (leaves.map Node.bare) e).foldl (fun m' s => s.run base m') m,
        (numeralSteps (leaves.map Node.bare) e).length) := by
  have hpath : ∀ p ∈ numeralPairs leaves e, p.1.path ≠ "" := fun p hp =>
    Expr.path_ne_empty_of_mem_numerals (mem_numeralPairs hp).1
  have hfold : (numeralPairs leaves e).foldl (fun m p => joinNumeral p.1 p.2 m) m = _ :=
    foldl_run (numeralPairs leaves e) (fun p => .numeral p.1 p.2.bare) hpath
      (fun p hp m' hm' _ => joinNumeral_eq hm' (hpath p hp) p.2) hdistinct hm
  rw [numeralSteps_bare, ← hfold, List.length_map]
  rfl

theorem operators_eq (hdistinct : (m.nodes.map (·.number)).Nodup) (hm : m.bare = base) :
    operators leaves e.operators m =
      ((operatorSteps (leaves.map Node.bare) e).foldl (fun m' s => s.run base m') m,
        (operatorSteps (leaves.map Node.bare) e).length) := by
  have hpath : ∀ p ∈ operatorPairs leaves e.operators, p.1.1.path ≠ "" := fun p hp =>
    Expr.path_ne_empty_of_mem_operators (mem_operatorPairs hp).1
  have hfold : (operatorPairs leaves e.operators).foldl
      (fun m p => joinOperator p.1.1 p.1.2 p.2 m) m = _ :=
    foldl_run (operatorPairs leaves e.operators) (fun p => .operator p.1.1 p.1.2 p.2.bare) hpath
      (fun p _ m' hm' _ => joinOperator_eq hm' p.1.1 p.1.2 p.2) hdistinct hm
  rw [operatorSteps_bare, ← hfold, List.length_map]
  rfl

theorem mixedNumbers_eq (hdistinct : (m.nodes.map (·.number)).Nodup) (hm : m.bare = base) :
    mixedNumbers leaves e.mixedNumbers m =
      ((mixedSteps (leaves.map Node.bare) e).foldl (fun m' s => s.run base m') m,
        (mixedSteps (leaves.map Node.bare) e).length) := by
  have hpath : ∀ p ∈ mixedPairs leaves e, p.1.path ≠ "" := fun p hp =>
    Expr.path_ne_empty_of_mem_mixedNumbers (mem_mixedPairs hp).1
  have hatoms : m.atoms.map Node.bare = base.atoms := by rw [← hm, atoms_bare]
  have hfold : (mixedPairs leaves e).foldl (fun m' p => joinMixed m.atoms p.1 p.2 m') m = _ :=
    foldl_run (mixedPairs leaves e) (fun p => .mixed p.1 p.2.bare) hpath
      (fun p hp m' hm' hdistinct' => joinMixed_eq hdistinct' hm' hatoms (hpath p hp) p.2)
      hdistinct hm
  rw [mixedSteps_bare, ← hfold, List.length_map]
  rfl

theorem bare_foldl_run (base : SurfaceMap α) {ss : List (Step α)} (hs : ∀ s ∈ ss, s.path ≠ "")
    (hdistinct : (m.nodes.map (·.number)).Nodup) :
    (ss.foldl (fun m' s => s.run base m') m).bare = m.bare :=
  List.foldlRecOn ss _ (motive := fun m' : SurfaceMap α => m'.bare = m.bare) rfl fun _ hbare s hmem =>
    (bare_eq_of_later (Step.run_spec base (hs s hmem) (nodup_numbers hbare hdistinct)).1).trans hbare

end

end Join

namespace SurfaceMap

open Join

variable [Coordinate α] {m : SurfaceMap α}

theorem leaves_bare (t : Tolerances α) :
    m.bare.leaves t = (m.leaves t).map Node.bare :=
  ReadingOrder.leaves_map (f := Node.bare) t.columnOverlap (fun _ => rfl) m.root

/-- Joining a map is going through steps that are read off the bare map. -/
theorem join_eq (t : Tolerances α) (e : Expr) (hdistinct : (m.nodes.map (·.number)).Nodup) :
    m.join t e = ((steps (m.bare.leaves t) e).foldl (fun m' s => s.run m.bare m') m,
      stepCounts (m.bare.leaves t) e) := by
  rw [leaves_bare]
  have hpath : ∀ s ∈ steps ((m.leaves t).map Node.bare) e, s.path ≠ "" :=
    fun s => path_ne_empty_of_mem_steps
  unfold steps at hpath ⊢
  have hfirst := bare_foldl_run m.bare
    (fun s hs => hpath s (List.mem_append_left _ (List.mem_append_left _ hs))) hdistinct
  have hsecond := bare_foldl_run m.bare
    (fun s hs => hpath s (List.mem_append_left _ hs)) hdistinct
  rw [List.foldl_append] at hsecond
  unfold join
  dsimp only
  rw [numerals_eq hdistinct rfl]
  dsimp only
  rw [operators_eq (nodup_numbers hfirst hdistinct) hfirst]
  dsimp only
  rw [mixedNumbers_eq (nodup_numbers hsecond hdistinct) hsecond, List.foldl_append,
    List.foldl_append]
  rfl

/-- The leaves of a map are apart when its nodes are. -/
theorem nodup_numbers_leaves (t : Tolerances α) (hdistinct : (m.nodes.map (·.number)).Nodup) :
    ((m.leaves t).map (·.number)).Nodup := by
  have hsublist := (Tree.leaves_sublist_preorder m.root).map (·.number)
  exact ((ReadingOrder.leaves_perm t.columnOverlap m.root).map _).nodup_iff.2
    (hsublist.nodup hdistinct)

/-- A map that has been joined carries what every step leaves behind. -/
theorem done_foldl_run (t : Tolerances α) (e : Expr) (hdistinct : (m.nodes.map (·.number)).Nodup) :
    ∀ s ∈ steps (m.bare.leaves t) e, s.Done m.bare
      ((steps (m.bare.leaves t) e).foldl (fun m' s => s.run m.bare m') m) := by
  have hleaves := nodup_numbers_leaves (m := m.bare) t (by rwa [numbers_bare])
  have hspec : ∀ s ∈ steps (m.bare.leaves t) e, ∀ m' : SurfaceMap α, m'.bare = m.bare →
      Changes (Later (· = s.leaf.number)) m' (s.run m.bare m') ∧ s.Done m.bare (s.run m.bare m') :=
    fun s hs m' hm' =>
      Step.run_spec m.bare (path_ne_empty_of_mem_steps hs) (nodup_numbers hm' hdistinct)
  refine (foldl_done (P := fun m' => m'.bare = m.bare) (D := fun s m' => s.Done m.bare m')
    (fun s hs m' hm' => ?_) (fun s hs m' hm' => (hspec s hs m' hm').2)
    (fun s hs s' hs' m' hm' hdone => ?_) rfl).2
  · exact (bare_eq_of_later (hspec s hs m' hm').1).trans hm'
  · obtain ⟨hlater, hdone'⟩ := hspec s' hs' m' hm'
    by_cases hown : s.leaf.number = s'.leaf.number
    · have hleaf := List.inj_on_of_nodup_map hleaves (leaf_mem_of_mem_steps hs)
        (leaf_mem_of_mem_steps hs') hown
      rw [eq_of_leaf_eq hleaves.of_map hs hs' hleaf]
      exact hdone'
    · exact hdone.later (path_ne_empty_of_mem_steps hs) hown hlater

/-- Joining a joined map again counts the same pairs and changes nothing, whatever the nodes
carried at first.  Nodes are told apart by their numbers. -/
theorem joinOption_joinOption (t : Tolerances α) (e : Option Expr)
    (hdistinct : (m.nodes.map (·.number)).Nodup) :
    (m.joinOption t e).1.joinOption t e = m.joinOption t e := by
  cases e with
  | none => rfl
  | some e =>
    have hpath : ∀ s ∈ steps (m.bare.leaves t) e, s.path ≠ "" :=
      fun s => path_ne_empty_of_mem_steps
    have hbare := bare_foldl_run m.bare hpath hdistinct
    show (m.join t e).1.join t e = m.join t e
    rw [join_eq t e hdistinct, join_eq t e (nodup_numbers hbare hdistinct), hbare]
    exact congrArg (·, _) (foldl_eq_self fun s hs => (done_foldl_run t e hdistinct s hs).run_eq)

namespace OneAndAHalf

open ReadingOrder

def half : Tree (Node Rat) :=
  .node (glyph 2 .fraction "" ⟨10, 0, 20, 24⟩)
    [.node { glyph 3 .num "2" ⟨10, 14, 20, 24⟩ with
        above := [2, 0], marks := { Marks.none with partOf := some "glyph-1" } } [],
      .node { glyph 4 .fracBar "" ⟨10, 11, 20, 12⟩ with above := [2, 0] } [],
      .node { glyph 5 .num "1" ⟨10, 0, 20, 10⟩ with
        above := [2, 0], marks := { Marks.none with partOf := some "glyph-1" } } []]

/-- One and a half plus three.  There are boxes around the plus and the three, and that
around the plus has been joined to something else before. -/
def map : SurfaceMap Rat where
  root := .node (glyph 0 .root "" ⟨0, 0, 50, 24⟩)
    [.node (glyph 1 .mixedNumber "1" ⟨0, 7, 10, 17⟩) [], half,
      .node { glyph 6 .binaryOp "+" ⟨20, 7, 30, 17⟩ with path := some "arg" }
        [.node { glyph 7 .binaryOp "+" ⟨20, 7, 30, 17⟩ with above := [6, 0] } []],
      .node (glyph 8 .num "3" ⟨30, 7, 40, 17⟩)
        [.node { glyph 9 .num "3" ⟨30, 7, 40, 17⟩ with above := [8, 0] } []]]
  origin := ⟨0, 0, 50, 24⟩
  container := []

def expr : Expr :=
  .binary .add (.mixed "1" "1" "2" (some "term[0]")) (.numeral "3" (some "term[1]")) (some "root")

theorem joined_twice :
    (map.nodes.map (·.number)).Nodup ∧
      (map.joinOption Tolerances.standard (some expr)).2 = ⟨1, 1, 1⟩ ∧
      (map.joinOption Tolerances.standard (some expr)).1.nodes.map (·.path) =
        [none, some "term[0]", none, some "term[0]", none, some "term[0]", some "arg",
          some "root", some "term[1]", some "term[1]"] ∧
      (map.joinOption Tolerances.standard (some expr)).1.joinOption Tolerances.standard (some expr) =
        map.joinOption Tolerances.standard (some expr) := by
  have hdistinct : (map.nodes.map (·.number)).Nodup := by decide +kernel
  exact ⟨hdistinct, by decide +kernel, by decide +kernel,
    joinOption_joinOption Tolerances.standard (some expr) hdistinct⟩

end OneAndAHalf

end SurfaceMap
end FormulaMap

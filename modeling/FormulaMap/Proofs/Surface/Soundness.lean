/-
What a joined map promises about the expression it was joined to.

`Sound` collects the promises: every path is a path of the expression, a leaf with a
path names a node of its own sort, no two numbers and no two operators name the same
node, and a step can be requested at every node.  All that joining asks for it is a
map that is ready (`Ready`) and an expression with a path at every node.

That an operator names the operator that it shows is not part of `Sound`, since it
holds of every operator but those whose text is the name of the bucket of the signs
(`shownBy_iff_of_mem_leaves`).
-/
import FormulaMap.Proofs.Engine.Requests
import FormulaMap.Proofs.Surface.Building
import FormulaMap.Proofs.Surface.Matching

namespace FormulaMap

open Join

variable {α : Type}

namespace Node

/-- A numeral that is no part of a mixed number, or a mixed number. -/
def isNumberLeaf (n : Node α) : Bool := isNumeralLeaf n || decide (n.kind = .mixedNumber)

end Node

namespace SurfaceMap

/-- What a joined map promises about the expression of a formula. -/
structure Sound (formula : String) (e : Expr) (m : SurfaceMap α) : Prop where
  paths : ∀ n ∈ m.nodes, ∀ p, n.path = some p → e.HasPath p
  /-- A numeral has the value of the numeral that it names. -/
  numerals : ∀ n ∈ m.root.leaves, isNumeralLeaf n = true → ∀ p, n.path = some p →
    ∃ v, e.nodeAt? p = some (.numeral v (some p)) ∧ n.value = some v
  operators : ∀ n ∈ m.root.leaves, n.kind.isOperator = true → ∀ p, n.path = some p →
    ∃ x, e.nodeAt? p = some x ∧ x.operator?.isSome = true
  mixedNumbers : ∀ n ∈ m.root.leaves, n.kind = .mixedNumber → ∀ p, n.path = some p →
    ∃ w u d, e.nodeAt? p = some (.mixed w u d (some p))
  numbersApart : ((m.root.leaves.filter (·.isNumberLeaf)).filterMap (·.path)).Nodup
  operatorsApart : ((m.root.leaves.filter (·.kind.isOperator)).filterMap (·.path)).Nodup
  /-- Every node can be asked for, by its path if it has one and else by its number. -/
  requests : ∀ n ∈ m.nodes, ∀ preferred session,
    ∃ r, StepRequest.ofNode formula n preferred session = .ok r ∧
      (r.Sends StepRequest.pathName ↔ n.path.isSome = true) ∧
      (r.Sends StepRequest.indexName → n.path = none)

/-- A map that has been built and refined, but not yet joined. -/
structure Ready (m : SurfaceMap α) : Prop where
  placed : Placed m.root
  fresh : ∀ n ∈ m.nodes, n.path = none
  coherent : ∀ n ∈ m.nodes, n.Coherent

/-- Leaves that pass a test have different paths when only one of them can have a path. -/
theorem nodup_paths {m : SurfaceMap α} (hm : Placed m.root) {test : Node α → Bool}
    (h : ∀ a ∈ m.root.leaves, ∀ b ∈ m.root.leaves, test a = true → test b = true →
      ∀ p, a.path = some p → b.path = some p → a.number = b.number) :
    ((m.root.leaves.filter test).filterMap (·.path)).Nodup := by
  have hnumbers : (m.root.leaves.map (·.number)).Nodup :=
    ((Tree.leaves_sublist_preorder m.root).map _).nodup hm.distinct
  rw [List.Nodup, List.pairwise_map] at hnumbers
  rw [List.Nodup, List.pairwise_filterMap, List.pairwise_filter]
  refine hnumbers.imp_of_mem ?_
  rintro a b ha hb hne hta htb p hp q hq rfl
  exact hne (h a ha b hb hta htb p hp hq)

theorem ready_refined [Coordinate α] (t : Tolerances α) (container : Address)
    (layout : Layout α) : ((build t container layout).enhance t).Ready := by
  have hplaced := placed_build t container layout
  have hfresh := fresh_build t container layout
  have hchanges := enhance_changes t hplaced fun n hn => (hfresh n hn).1
  refine ⟨hchanges.placed ?_ hplaced, ?_, ?_⟩
  · rintro a b ⟨hframe, -⟩
    exact ⟨congrArg Frame.number hframe, congrArg Frame.above hframe⟩
  · intro n' hn'
    obtain ⟨n, hn, hframe, -⟩ := hchanges.exists_of_mem_nodes hn'
    exact (congrArg Frame.path hframe).trans (hfresh n hn).2
  · intro n' hn'
    obtain ⟨n, -, -, hcoherent⟩ := hchanges.exists_of_mem_nodes hn'
    exact hcoherent

section
variable [Coordinate α] {t : Tolerances α} {m : SurfaceMap α} {e : Expr}

/-! ## What a leaf names -/

/-- The leaf that a joined leaf was before, and the pair that it got its path from. -/
theorem fromPair_of_path (hm : m.Ready) {n' : Node α} (hn' : n' ∈ (m.join t e).1.root.leaves)
    {p : String} (hp : n'.path = some p) :
    ∃ n, n.Coherent ∧ SameSurface n n' ∧ FromPair (m.leaves t) e n n' := by
  have hjoined : n'.path ≠ none := by
    rw [hp]
    exact Option.some_ne_none p
  obtain ⟨n, hn, hsame, hpair⟩ := fromPair_of_mem_leaves_join hm.placed hm.fresh hn' hjoined
  exact ⟨n, hm.coherent n ((Tree.leaves_sublist_preorder m.root).subset hn), hsame, hpair⟩

theorem numeral_of_mem_leaves (hm : m.Ready) {n' : Node α} (hn' : n' ∈ (m.join t e).1.root.leaves)
    (hkind : isNumeralLeaf n' = true) {p : String} (hp : n'.path = some p) :
    ∃ d n, (d, n) ∈ numeralPairs (m.leaves t) e ∧ n'.number = n.number ∧ d.path = p ∧
      n'.value = some d.text := by
  obtain ⟨n, -, hsame, hpair⟩ := fromPair_of_path hm hn' hp
  have hn : isNumeralLeaf n = true := by
    rw [isNumeralLeaf, ← hsame.kind, ← hsame.isMixedPart]
    exact hkind
  obtain ⟨d, hmem, hpath, hvalue⟩ := hpair.numeral_of hn
  rw [hp, Option.some.injEq] at hpath
  exact ⟨d, n, hmem, hsame.number, hpath.symm, hvalue⟩

theorem operator_of_mem_leaves (hm : m.Ready) {n' : Node α}
    (hn' : n' ∈ (m.join t e).1.root.leaves) (hkind : n'.kind.isOperator = true) {p : String}
    (hp : n'.path = some p) :
    ∃ d rank n, ((d, rank), n) ∈ operatorPairs (m.leaves t) e.operators ∧ SameSurface n n' ∧
      n.Coherent ∧ d.path = p := by
  obtain ⟨n, hcoherent, hsame, hpair⟩ := fromPair_of_path hm hn' hp
  rw [hsame.kind] at hkind
  obtain ⟨d, rank, hmem, hpath⟩ := hpair.operator_of hcoherent hkind
  rw [hp, Option.some.injEq] at hpath
  exact ⟨d, rank, n, hmem, hsame, hcoherent, hpath.symm⟩

theorem mixed_of_mem_leaves (hm : m.Ready) {n' : Node α} (hn' : n' ∈ (m.join t e).1.root.leaves)
    (hkind : n'.kind = .mixedNumber) {p : String} (hp : n'.path = some p) :
    ∃ d n, (d, n) ∈ mixedPairs (m.leaves t) e ∧ n'.number = n.number ∧ d.path = p := by
  obtain ⟨n, hcoherent, hsame, hpair⟩ := fromPair_of_path hm hn' hp
  rw [hsame.kind] at hkind
  obtain ⟨d, hmem, hpath⟩ := hpair.mixed_of hcoherent hkind
  rw [hp, Option.some.injEq] at hpath
  exact ⟨d, n, hmem, hsame.number, hpath.symm⟩

theorem nodeAt?_of_mem_numerals (he : e.Addressed) {d : NumeralDescriptor} (hd : d ∈ e.numerals) :
    e.nodeAt? d.path = some (.numeral d.text (some d.path)) :=
  he.nodeAt?_eq (Expr.mem_of_mem_numerals hd) rfl

theorem nodeAt?_of_mem_mixedNumbers (he : e.Addressed) {d : MixedDescriptor}
    (hd : d ∈ e.mixedNumbers) :
    e.nodeAt? d.path = some (.mixed d.whole d.numerator d.denominator (some d.path)) :=
  he.nodeAt?_eq (Expr.mem_of_mem_mixedNumbers hd) rfl

/-- A joined operator shows the operator that it names, unless its text is the name of the
bucket of the signs. -/
theorem shownBy_iff_of_mem_leaves (hm : m.Ready) (he : e.Addressed) {n' : Node α}
    (hn' : n' ∈ (m.join t e).1.root.leaves) (hkind : n'.kind.isOperator = true) {p : String}
    (hp : n'.path = some p) :
    ∃ x, e.nodeAt? p = some x ∧ x.operator?.isSome = true ∧
      (x.ShownBy n' ↔ normalizeOperator n'.text ≠ signBucket) := by
  obtain ⟨d, rank, n, hpair, hsame, hcoherent, rfl⟩ := operator_of_mem_leaves hm hn' hkind hp
  obtain ⟨hd, -, -, hbucket⟩ := mem_operatorPairs hpair
  obtain ⟨x, hx, hpath, hoperator⟩ := Expr.mem_of_mem_operators hd
  have hshown := shownBy_iff hoperator hcoherent.sign hbucket
  refine ⟨x, he.nodeAt?_eq hx hpath, by rw [hoperator]; rfl, ?_⟩
  rw [Expr.ShownBy, hsame.text, hsame.kind]
  exact hshown

/-! ## No two leaves name the same node -/

theorem number_eq_of_operators (hm : m.Ready) (he : e.Addressed) {a b : Node α}
    (ha : a ∈ (m.join t e).1.root.leaves) (hb : b ∈ (m.join t e).1.root.leaves)
    (hka : a.kind.isOperator = true) (hkb : b.kind.isOperator = true) {p : String}
    (hpa : a.path = some p) (hpb : b.path = some p) : a.number = b.number := by
  obtain ⟨d, rank, n, hpair, hsame, -, hpath⟩ := operator_of_mem_leaves hm ha hka hpa
  obtain ⟨d', rank', n', hpair', hsame', -, hpath'⟩ := operator_of_mem_leaves hm hb hkb hpb
  have heq := eq_of_mem_operatorPairs he hpair hpair' (hpath.trans hpath'.symm)
  rw [hsame.number, hsame'.number, heq]

/-- A numeral and a mixed number name nodes of different sorts. -/
theorem number_eq_of_numbers (hm : m.Ready) (he : e.Addressed) {a b : Node α}
    (ha : a ∈ (m.join t e).1.root.leaves) (hb : b ∈ (m.join t e).1.root.leaves)
    (hka : a.isNumberLeaf = true) (hkb : b.isNumberLeaf = true) {p : String}
    (hpa : a.path = some p) (hpb : b.path = some p) : a.number = b.number := by
  have hmixed : ∀ {c c' : Node α}, c ∈ (m.join t e).1.root.leaves →
      c' ∈ (m.join t e).1.root.leaves → isNumeralLeaf c = true → c'.kind = .mixedNumber →
      c.path = some p → c'.path ≠ some p := by
    intro c c' hc hc' hnumeral hkind hpc hpc'
    obtain ⟨d, n, hpair, -, hpath, -⟩ := numeral_of_mem_leaves hm hc hnumeral hpc
    obtain ⟨d', n', hpair', -, hpath'⟩ := mixed_of_mem_leaves hm hc' hkind hpc'
    have hat := nodeAt?_of_mem_numerals he (mem_numeralPairs hpair).1
    have hat' := nodeAt?_of_mem_mixedNumbers he (mem_mixedPairs hpair').1
    rw [hpath] at hat
    rw [hpath', hat] at hat'
    exact Expr.noConfusion (Option.some.inj hat')
  rw [Node.isNumberLeaf, Bool.or_eq_true, decide_eq_true_eq] at hka hkb
  rcases hka with hka | hka <;> rcases hkb with hkb | hkb
  · obtain ⟨d, n, hpair, hnumber, hpath, -⟩ := numeral_of_mem_leaves hm ha hka hpa
    obtain ⟨d', n', hpair', hnumber', hpath', -⟩ := numeral_of_mem_leaves hm hb hkb hpb
    rw [hnumber, hnumber', eq_of_mem_numeralPairs he hpair hpair' (hpath.trans hpath'.symm)]
  · exact absurd hpb (hmixed ha hb hka hkb hpa)
  · exact absurd hpa (hmixed hb ha hkb hka hpb)
  · obtain ⟨d, n, hpair, hnumber, hpath⟩ := mixed_of_mem_leaves hm ha hka hpa
    obtain ⟨d', n', hpair', hnumber', hpath'⟩ := mixed_of_mem_leaves hm hb hkb hpb
    rw [hnumber, hnumber', eq_of_mem_mixedPairs he hpair hpair' (hpath.trans hpath'.symm)]

/-! ## Soundness -/

theorem placed_join (hm : Placed m.root) : Placed (m.join t e).1.root := by
  obtain ⟨m₁, m₂, h₁, h₂, h₃⟩ := join_changes hm e t
  exact placed_of_receives h₃ (placed_of_receives h₂ (placed_of_receives h₁ hm))

theorem sound_join (hm : m.Ready) (he : e.Addressed) {formula : String}
    (hformula : formula.isEmpty = false) (t : Tolerances α) : Sound formula e (m.join t e).1 where
  paths := fun _ hn _ hp => hasPath_of_mem_nodes_join hm.placed hm.fresh hn hp
  numerals := by
    intro n hn hkind p hp
    obtain ⟨d, a, hpair, -, rfl, hvalue⟩ := numeral_of_mem_leaves hm hn hkind hp
    exact ⟨d.text, nodeAt?_of_mem_numerals he (mem_numeralPairs hpair).1, hvalue⟩
  operators := by
    intro n hn hkind p hp
    obtain ⟨x, hx, hoperator, -⟩ := shownBy_iff_of_mem_leaves hm he hn hkind hp
    exact ⟨x, hx, hoperator⟩
  mixedNumbers := by
    intro n hn hkind p hp
    obtain ⟨d, a, hpair, -, rfl⟩ := mixed_of_mem_leaves hm hn hkind hp
    exact ⟨d.whole, d.numerator, d.denominator,
      nodeAt?_of_mem_mixedNumbers he (mem_mixedPairs hpair).1⟩
  numbersApart := nodup_paths (placed_join hm.placed) fun _ ha _ hb hka hkb _ hpa hpb =>
    number_eq_of_numbers hm he ha hb hka hkb hpa hpb
  operatorsApart := nodup_paths (placed_join hm.placed) fun _ ha _ hb hka hkb _ hpa hpb =>
    number_eq_of_operators hm he ha hb hka hkb hpa hpb
  requests := by
    intro n hn preferred session
    refine StepRequest.ofNode_sends hformula ?_ preferred session
    intro p hp
    obtain ⟨x, hx, hpath⟩ := hasPath_of_mem_nodes_join hm.placed hm.fresh hn hp
    obtain ⟨q, hq, hvalid⟩ := he.located x hx
    rw [hpath, Option.some.injEq] at hq
    rw [hq]
    exact hvalid

end

end SurfaceMap
end FormulaMap

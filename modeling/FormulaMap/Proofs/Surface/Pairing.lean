/-
What joining a map to an expression does to its nodes.

Joining goes in steps, one for each pair of a descriptor and a leaf, and every step
gives a path to the leaf of the pair and to nodes above it.  Since a leaf stands above
no node, a step reaches another leaf only where it gives the parts of a mixed number
their path.  `Receives` says this of one node: it keeps what it was, it carries a path
of the expression if it carries a new one, and if it is a leaf it was left alone or
was the leaf of a pair.  The relation is closed under composition, so it holds of
whole passes (`numerals_changes`, `operators_changes`, `mixedNumbers_changes`), and
`fromPair_of_mem_leaves_join` puts the three together: the last pass that touched a leaf
tells which pair it belongs to.
-/
import FormulaMap.Proofs.Formula.Descriptors
import FormulaMap.Proofs.Surface.Placement
import FormulaMap.Proofs.Surface.ReadingOrder

namespace FormulaMap

variable {α : Type}

/-- What joining never changes about a node. -/
structure SameSurface (a b : Node α) : Prop where
  number : b.number = a.number
  above : b.above = a.above
  kind : b.kind = a.kind
  text : b.text = a.text
  partOf : b.marks.partOf = a.marks.partOf

namespace SameSurface

variable {a b c : Node α}

theorem refl (a : Node α) : SameSurface a a := ⟨rfl, rfl, rfl, rfl, rfl⟩

theorem trans (h : SameSurface a b) (h' : SameSurface b c) : SameSurface a c :=
  ⟨h'.number.trans h.number, h'.above.trans h.above, h'.kind.trans h.kind, h'.text.trans h.text,
    h'.partOf.trans h.partOf⟩

theorem isMixedPart (h : SameSurface a b) : b.isMixedPart = a.isMixedPart := by
  rw [Node.isMixedPart, Node.isMixedPart, Node.mixedOwner?, Node.mixedOwner?, h.partOf]

end SameSurface

namespace Expr

/-- Some node of the expression has this path. -/
def HasPath (e : Expr) (p : String) : Prop := ∃ x ∈ e.nodes, x.path = some p

end Expr

namespace Join

/-- What may have happened to a node.  `leaf` says which numbers are those of leaves,
and `given` which path and value a pair gives to the leaf with a number. -/
structure Receives (e : Expr) (leaf : Nat → Prop)
    (given : Nat → Option String → Option String → Prop) (a b : Node α) : Prop where
  same : SameSurface a b
  path : ∀ p, b.path = some p → a.path = some p ∨ e.HasPath p
  touched : leaf a.number → (b.path = a.path ∧ b.value = a.value) ∨ given a.number b.path b.value

namespace Receives

variable {e : Expr} {leaf : Nat → Prop} {given : Nat → Option String → Option String → Prop}
  {a b c : Node α}

theorem refl (a : Node α) : Receives e leaf given a a :=
  ⟨SameSurface.refl a, fun _ hp => Or.inl hp, fun _ => Or.inl ⟨rfl, rfl⟩⟩

theorem trans (h : Receives e leaf given a b) (h' : Receives e leaf given b c) :
    Receives e leaf given a c where
  same := h.same.trans h'.same
  path := by
    intro p hp
    rcases h'.path p hp with hb | hhas
    · exact h.path p hb
    · exact Or.inr hhas
  touched := by
    intro hleaf
    have hnumber := h.same.number
    rcases h'.touched (by rwa [hnumber]) with ⟨hpath, hvalue⟩ | hgiven
    · rw [hpath, hvalue]
      exact h.touched hleaf
    · rw [hnumber] at hgiven
      exact Or.inr hgiven

theorem of_not_leaf (hsame : SameSurface a b)
    (hpath : ∀ p, b.path = some p → a.path = some p ∨ e.HasPath p) (hleaf : ¬ leaf a.number) :
    Receives e leaf given a b :=
  ⟨hsame, hpath, fun h => absurd h hleaf⟩

end Receives

open SurfaceMap

/-- No node stands below a leaf. -/
def Clear (leaf : Nat → Prop) (m : SurfaceMap α) : Prop :=
  ∀ n ∈ m.nodes, ∀ k ∈ n.above, ¬ leaf k

section
variable {e : Expr} {leaf : Nat → Prop} {given : Nat → Option String → Option String → Prop}

theorem Clear.changes {m m' : SurfaceMap α} (hm : Clear leaf m)
    (h : Changes (Receives e leaf given) m m') : Clear leaf m' := by
  intro n' hn'
  obtain ⟨n, hn, hreceives⟩ := h.exists_of_mem_nodes hn'
  rw [hreceives.same.above]
  exact hm n hn

theorem changes_trans {m m' m'' : SurfaceMap α} (h : Changes (Receives e leaf given) m m')
    (h' : Changes (Receives e leaf given) m' m'') : Changes (Receives e leaf given) m m'' :=
  h.trans (fun _ _ _ hab hbc => hab.trans hbc) h'

/-- Steps that change nodes as they may, one after another. -/
theorem foldl_changes {β : Type} {step : SurfaceMap α → β → SurfaceMap α} (xs : List β)
    (hstep : ∀ x ∈ xs, ∀ m, Clear leaf m → Changes (Receives e leaf given) m (step m x))
    {m : SurfaceMap α} (hm : Clear leaf m) :
    Changes (Receives e leaf given) m (xs.foldl step m) := by
  induction xs generalizing m with
  | nil => exact Changes.refl Receives.refl m
  | cons x xs ih =>
    have hfirst := hstep x List.mem_cons_self m hm
    exact changes_trans hfirst
      (ih (fun y hy => hstep y (List.mem_cons_of_mem x hy)) (hm.changes hfirst))

/-! ## Single steps -/

theorem update_changes {k : Nat} {f : Node α → Node α}
    (hf : ∀ n, n.number = k → Receives e leaf given n (f n)) (m : SurfaceMap α) :
    Changes (Receives e leaf given) m (m.update k f) := by
  refine ⟨_, rfl, ?_⟩
  intro n _
  by_cases hk : n.number = k
  · rw [if_pos hk]
    exact hf n hk
  · rw [if_neg hk]
    exact Receives.refl n

/-- What encloses a node is no leaf. -/
theorem updateAll_changes {test : Node α → Bool} {m m' : SurfaceMap α} {n : Node α}
    (hn : ∀ k ∈ n.above, ¬ leaf k) {f : Node α → Node α} (hsame : ∀ a, SameSurface a (f a))
    (hpath : ∀ a p, (f a).path = some p → a.path = some p ∨ e.HasPath p) :
    Changes (Receives e leaf given) m (updateAll (enclosing test m' n) f m) := by
  refine ⟨_, rfl, ?_⟩
  intro a _
  by_cases ha : (enclosing test m' n).contains a.number = true
  · rw [if_pos ha]
    have hmem : a.number ∈ n.above :=
      (List.takeWhile_sublist _).subset (List.contains_iff_mem.1 ha)
    exact Receives.of_not_leaf (hsame a) (hpath a) (hn a.number hmem)
  · rw [if_neg ha]
    exact Receives.refl a

theorem fillNumbersAbove_changes {p : String} (hp : e.HasPath p) (value : Option String)
    {m : SurfaceMap α} {n : Node α} (hn : ∀ k ∈ n.above, ¬ leaf k) :
    Changes (Receives e leaf given) m (fillNumbersAbove p value n m) := by
  refine updateAll_changes hn (fun a => ⟨rfl, rfl, rfl, rfl, rfl⟩) ?_
  intro a q hq
  rw [fillNumber] at hq
  dsimp only at hq
  split at hq
  · exact Or.inl hq
  · rw [Option.some.injEq] at hq
    exact Or.inr (hq ▸ hp)

theorem joinNumeral_changes {d : NumeralDescriptor} (hd : e.HasPath d.path) {n : Node α}
    (hn : ∀ k ∈ n.above, ¬ leaf k) (hgiven : given n.number (some d.path) (some d.text))
    (m : SurfaceMap α) : Changes (Receives e leaf given) m (joinNumeral d n m) := by
  refine changes_trans (update_changes ?_ m) (fillNumbersAbove_changes hd _ hn)
  intro a ha
  refine ⟨⟨rfl, rfl, rfl, rfl, rfl⟩, ?_, fun _ => Or.inr (by rw [ha]; exact hgiven)⟩
  intro q hq
  exact Or.inr (Option.some.inj hq ▸ hd)

theorem joinOperator_changes {d : OperatorDescriptor} (hd : e.HasPath d.path) (rank : Nat)
    {n : Node α} (hn : ∀ k ∈ n.above, ¬ leaf k)
    (hgiven : ∀ v, given n.number (some d.path) v) (m : SurfaceMap α) :
    Changes (Receives e leaf given) m (joinOperator d rank n m) := by
  have hfill : ∀ (a : Node α) (q : String), (fillOperator d rank a).path = some q →
      a.path = some q ∨ e.HasPath q :=
    fun a q hq => Or.inr (Option.some.inj hq ▸ hd)
  refine changes_trans (update_changes ?_ m) (updateAll_changes hn ?_ ?_)
  · intro a ha
    exact ⟨⟨rfl, rfl, rfl, rfl, rfl⟩, hfill a, fun _ => Or.inr (by rw [ha]; exact hgiven _)⟩
  · intro a
    split
    · exact SameSurface.refl a
    · exact ⟨rfl, rfl, rfl, rfl, rfl⟩
  · intro a q hq
    split at hq
    · exact Or.inl hq
    · exact hfill a q hq

theorem joinPart_changes {p : String} (hp : e.HasPath p) {part : Node α}
    (hgiven : ∀ v, given part.number (some p) v) {m : SurfaceMap α} (hm : Clear leaf m) :
    Changes (Receives e leaf given) m (joinPart p part m) := by
  unfold joinPart
  split
  · next n hfind =>
    split
    · exact Changes.refl Receives.refl m
    · have hn : n ∈ m.nodes := List.mem_of_find?_eq_some hfind
      have hnumber : n.number = part.number := by
        have htest := List.find?_some hfind
        exact beq_iff_eq.1 htest
      refine changes_trans (update_changes ?_ m) (fillNumbersAbove_changes hp none (hm n hn))
      intro a ha
      refine ⟨⟨rfl, rfl, rfl, rfl, rfl⟩, ?_, fun _ => Or.inr ?_⟩
      · intro q hq
        exact Or.inr (Option.some.inj hq ▸ hp)
      · rw [ha, hnumber]
        exact hgiven _
  · exact Changes.refl Receives.refl m

theorem joinMixed_changes {atoms : List (Node α)} {d : MixedDescriptor} (hd : e.HasPath d.path)
    {n : Node α} (hn : ∀ k ∈ n.above, ¬ leaf k)
    (hgiven : ∀ v, given n.number (some d.path) v)
    (hparts : ∀ a ∈ atoms, a.mixedOwner? = some n.id → ∀ v, given a.number (some d.path) v)
    {m : SurfaceMap α} (hm : Clear leaf m) :
    Changes (Receives e leaf given) m (joinMixed atoms d n m) := by
  unfold joinMixed
  dsimp only
  generalize hjoined : m.update n.number _ = joined
  have hwhole : Changes (Receives e leaf given) m joined := by
    rw [← hjoined]
    refine update_changes ?_ m
    intro a ha
    refine ⟨⟨rfl, rfl, rfl, rfl, rfl⟩, ?_, fun _ => Or.inr (by rw [ha]; exact hgiven _)⟩
    intro q hq
    exact Or.inr (Option.some.inj hq ▸ hd)
  have hpartsJoined : Changes (Receives e leaf given) joined
      ((atoms.filter fun a => a.mixedOwner? == some n.id).foldl
        (fun m p => joinPart d.path p m) joined) := by
    refine foldl_changes _ ?_ (hm.changes hwhole)
    intro part hpart m' hm'
    obtain ⟨hmem, howner⟩ := List.mem_filter.1 hpart
    exact joinPart_changes hd (hparts part hmem (beq_iff_eq.1 howner)) hm'
  exact changes_trans hwhole
    (changes_trans hpartsJoined (fillNumbersAbove_changes hd none hn))

end

/-! ## Passes -/

def numeralPairs (leaves : List (Node α)) (e : Expr) : List (NumeralDescriptor × Node α) :=
  e.numerals.zip (leaves.filter isNumeralLeaf)

def mixedPairs (leaves : List (Node α)) (e : Expr) : List (MixedDescriptor × Node α) :=
  e.mixedNumbers.zip (leaves.filter (·.kind = .mixedNumber))

theorem mem_numeralPairs {leaves : List (Node α)} {e : Expr} {d : NumeralDescriptor} {n : Node α}
    (h : (d, n) ∈ numeralPairs leaves e) :
    d ∈ e.numerals ∧ n ∈ leaves ∧ isNumeralLeaf n = true := by
  obtain ⟨hd, hn⟩ := List.of_mem_zip h
  exact ⟨hd, List.mem_filter.1 hn⟩

theorem mem_mixedPairs {leaves : List (Node α)} {e : Expr} {d : MixedDescriptor} {n : Node α}
    (h : (d, n) ∈ mixedPairs leaves e) :
    d ∈ e.mixedNumbers ∧ n ∈ leaves ∧ n.kind = .mixedNumber := by
  obtain ⟨hd, hn⟩ := List.of_mem_zip h
  obtain ⟨hmem, hkind⟩ := List.mem_filter.1 hn
  exact ⟨hd, hmem, of_decide_eq_true hkind⟩

theorem map_fst_ranked (ds : List OperatorDescriptor) : (ranked ds).map Prod.fst = ds := by
  unfold ranked
  rw [List.map_map]
  exact List.zipIdx_map_fst 0 ds

theorem mem_bucketPairs {leaves : List (Node α)} {ds : List OperatorDescriptor} {b : String}
    {d : OperatorDescriptor} {rank : Nat} {n : Node α}
    (h : ((d, rank), n) ∈ bucketPairs leaves ds b) :
    d ∈ ds ∧ bucketOfDescriptor d = b ∧ n ∈ leaves ∧ n.kind.isOperator = true ∧
      bucketOfNode n = b := by
  obtain ⟨hd, hn⟩ := List.of_mem_zip h
  have hmem := List.mem_map_of_mem (f := Prod.fst) hd
  rw [map_fst_ranked] at hmem
  obtain ⟨hdmem, hdbucket⟩ := List.mem_filter.1 hmem
  obtain ⟨hn, hnbucket⟩ := List.mem_filter.1 hn
  obtain ⟨hnmem, hkind⟩ := List.mem_filter.1 hn
  exact ⟨hdmem, of_decide_eq_true hdbucket, hnmem, hkind, of_decide_eq_true hnbucket⟩

theorem mem_operatorPairs {leaves : List (Node α)} {ds : List OperatorDescriptor}
    {d : OperatorDescriptor} {rank : Nat} {n : Node α}
    (h : ((d, rank), n) ∈ operatorPairs leaves ds) :
    d ∈ ds ∧ n ∈ leaves ∧ n.kind.isOperator = true ∧ bucketOfNode n = bucketOfDescriptor d := by
  obtain ⟨b, _, hpair⟩ := List.mem_flatMap.1 h
  obtain ⟨hd, hdb, hn, hkind, hnb⟩ := mem_bucketPairs hpair
  exact ⟨hd, hn, hkind, hnb.trans hdb.symm⟩

/-- What a pair of a numeral gives to the leaf with a number. -/
def GivenNumeral (leaves : List (Node α)) (e : Expr) (k : Nat) (p v : Option String) : Prop :=
  ∃ d n, (d, n) ∈ numeralPairs leaves e ∧ n.number = k ∧ p = some d.path ∧ v = some d.text

def GivenOperator (leaves : List (Node α)) (e : Expr) (k : Nat) (p _v : Option String) : Prop :=
  ∃ d rank n, ((d, rank), n) ∈ operatorPairs leaves e.operators ∧ n.number = k ∧ p = some d.path

/-- A mixed number gives its path to its leaf and to its parts. -/
def GivenMixed (leaves atoms : List (Node α)) (e : Expr) (k : Nat) (p _v : Option String) : Prop :=
  (∃ d n, (d, n) ∈ mixedPairs leaves e ∧ n.number = k ∧ p = some d.path) ∨
    ∃ a ∈ atoms, a.number = k ∧ a.isMixedPart = true

section
variable {e : Expr} {leaves : List (Node α)} {leaf : Nat → Prop} {m : SurfaceMap α}

theorem numerals_changes (hleaves : ∀ n ∈ leaves, ∀ k ∈ n.above, ¬ leaf k) (hm : Clear leaf m) :
    Changes (Receives e leaf (GivenNumeral leaves e)) m (numerals leaves e.numerals m).1 := by
  refine foldl_changes (numeralPairs leaves e) ?_ hm
  rintro ⟨d, n⟩ hpair m' -
  obtain ⟨hd, hn, -⟩ := mem_numeralPairs hpair
  exact joinNumeral_changes ⟨_, Expr.mem_of_mem_numerals hd, rfl⟩ (hleaves n hn)
    ⟨d, n, hpair, rfl, rfl, rfl⟩ m'

theorem operators_changes (hleaves : ∀ n ∈ leaves, ∀ k ∈ n.above, ¬ leaf k) (hm : Clear leaf m) :
    Changes (Receives e leaf (GivenOperator leaves e)) m (operators leaves e.operators m).1 := by
  refine foldl_changes (operatorPairs leaves e.operators) ?_ hm
  rintro ⟨⟨d, rank⟩, n⟩ hpair m' -
  obtain ⟨hd, hn, -⟩ := mem_operatorPairs hpair
  obtain ⟨x, hx, hpath, -⟩ := Expr.mem_of_mem_operators hd
  exact joinOperator_changes ⟨x, hx, hpath⟩ rank (hleaves n hn)
    (fun _ => ⟨d, rank, n, hpair, rfl, rfl⟩) m'

theorem mixedNumbers_changes (hleaves : ∀ n ∈ leaves, ∀ k ∈ n.above, ¬ leaf k)
    (hm : Clear leaf m) :
    Changes (Receives e leaf (GivenMixed leaves m.atoms e)) m
      (mixedNumbers leaves e.mixedNumbers m).1 := by
  refine foldl_changes (mixedPairs leaves e) ?_ hm
  rintro ⟨d, n⟩ hpair m' hm'
  obtain ⟨hd, hn, -⟩ := mem_mixedPairs hpair
  refine joinMixed_changes ⟨_, Expr.mem_of_mem_mixedNumbers hd, rfl⟩ (hleaves n hn)
    (fun _ => Or.inl ⟨d, n, hpair, rfl, rfl⟩) ?_ hm'
  intro a ha howner v
  refine Or.inr ⟨a, ha, rfl, ?_⟩
  rw [Node.isMixedPart, howner]
  rfl

theorem placed_of_receives {given : Nat → Option String → Option String → Prop}
    {m' : SurfaceMap α} (h : Changes (Receives e leaf given) m m') (hm : Placed m.root) :
    Placed m'.root :=
  h.placed (fun _ _ hab => ⟨hab.same.number, hab.same.above⟩) hm

end

end Join

namespace SurfaceMap

open Join

def IsLeafNumber (m : SurfaceMap α) (k : Nat) : Prop := ∃ l ∈ m.root.leaves, l.number = k

/-- The pair that a leaf of a joined map got its path from: of a numeral, an operator or
a mixed number, unless the leaf is a part of a mixed number. -/
inductive FromPair (leaves : List (Node α)) (e : Expr) (n n' : Node α) : Prop where
  | numeral (d : NumeralDescriptor) :
      (d, n) ∈ numeralPairs leaves e → n'.path = some d.path → n'.value = some d.text →
      FromPair leaves e n n'
  | operator (d : OperatorDescriptor) (rank : Nat) :
      ((d, rank), n) ∈ operatorPairs leaves e.operators → n'.path = some d.path →
      FromPair leaves e n n'
  | mixed (d : MixedDescriptor) :
      (d, n) ∈ mixedPairs leaves e → n'.path = some d.path → FromPair leaves e n n'
  | part : n.isMixedPart = true → FromPair leaves e n n'

variable [Coordinate α] {t : Tolerances α} {m : SurfaceMap α}

/-- The three passes, each seen as changes in place. -/
theorem join_changes (hm : Placed m.root) (e : Expr) (t : Tolerances α) :
    ∃ m₁ m₂ : SurfaceMap α,
      Changes (Receives e m.IsLeafNumber (GivenNumeral (m.leaves t) e)) m m₁ ∧
      Changes (Receives e m.IsLeafNumber (GivenOperator (m.leaves t) e)) m₁ m₂ ∧
      Changes (Receives e m.IsLeafNumber (GivenMixed (m.leaves t) m₂.atoms e)) m₂
        (m.join t e).1 := by
  have hclear : Clear m.IsLeafNumber m := by
    rintro n hn k hk ⟨l, hl, rfl⟩
    exact hm.apart l hl n hn hk
  have hleaves : ∀ n ∈ m.leaves t, ∀ k ∈ n.above, ¬ m.IsLeafNumber k := by
    intro n hn
    exact hclear n ((Tree.leaves_sublist_preorder m.root).subset ((mem_leaves_iff t m).1 hn))
  have h₁ := numerals_changes (e := e) hleaves hclear
  have hclear₁ := hclear.changes h₁
  have h₂ := operators_changes (e := e) hleaves hclear₁
  have h₃ := mixedNumbers_changes (e := e) hleaves (hclear₁.changes h₂)
  exact ⟨_, _, h₁, h₂, h₃⟩

/-- Every path of a joined map is a path of the expression. -/
theorem hasPath_of_mem_nodes_join (hm : Placed m.root) (hfresh : ∀ n ∈ m.nodes, n.path = none)
    {e : Expr} {n' : Node α} (hn' : n' ∈ (m.join t e).1.nodes) {p : String}
    (hp : n'.path = some p) : e.HasPath p := by
  obtain ⟨m₁, m₂, h₁, h₂, h₃⟩ := join_changes hm e t
  obtain ⟨n₂, hn₂, hr₃⟩ := h₃.exists_of_mem_nodes hn'
  obtain ⟨n₁, hn₁, hr₂⟩ := h₂.exists_of_mem_nodes hn₂
  obtain ⟨n, hn, hr₁⟩ := h₁.exists_of_mem_nodes hn₁
  rcases hr₃.path p hp with hp | hhas
  · rcases hr₂.path p hp with hp | hhas
    · rcases hr₁.path p hp with hp | hhas
      · rw [hfresh n hn] at hp
        exact absurd hp (by simp)
      · exact hhas
    · exact hhas
  · exact hhas

/-- A leaf with a path got it from a pair that it is itself in, or is a part of a mixed
number.  The last pass that touched the leaf says which. -/
theorem fromPair_of_mem_leaves_join (hm : Placed m.root)
    (hfresh : ∀ n ∈ m.nodes, n.path = none) {e : Expr} {n' : Node α}
    (hn' : n' ∈ (m.join t e).1.root.leaves) (hp : n'.path ≠ none) :
    ∃ n ∈ m.root.leaves, SameSurface n n' ∧ FromPair (m.leaves t) e n n' := by
  obtain ⟨m₁, m₂, h₁, h₂, h₃⟩ := join_changes hm e t
  obtain ⟨n₂, hn₂, hr₃⟩ := h₃.exists_of_mem_leaves hn'
  obtain ⟨n₁, hn₁, hr₂⟩ := h₂.exists_of_mem_leaves hn₂
  obtain ⟨n, hn, hr₁⟩ := h₁.exists_of_mem_leaves hn₁
  have hnmem : n ∈ m.nodes := (Tree.leaves_sublist_preorder m.root).subset hn
  have hsame₂ : SameSurface n n₂ := hr₁.same.trans hr₂.same
  have hleaf : m.IsLeafNumber n.number := ⟨n, hn, rfl⟩
  -- the leaf of a pair that bears the number of this one is this one
  have hself : ∀ a ∈ m.leaves t, a.number = n.number → a = n := by
    intro a ha hnumber
    have hamem := (Tree.leaves_sublist_preorder m.root).subset ((mem_leaves_iff t m).1 ha)
    exact hm.eq_of_number hamem hnmem hnumber
  refine ⟨n, hn, hsame₂.trans hr₃.same, ?_⟩
  rcases hr₃.touched (by rw [hsame₂.number]; exact hleaf) with ⟨hpath₃, hvalue₃⟩ | hmixed
  · rcases hr₂.touched (by rw [hr₁.same.number]; exact hleaf) with ⟨hpath₂, hvalue₂⟩ | hoperator
    · rcases hr₁.touched hleaf with ⟨hpath₁, -⟩ | ⟨d, a, hpair, hnumber, hpath, hvalue⟩
      · rw [hpath₃, hpath₂, hpath₁, hfresh n hnmem] at hp
        exact absurd rfl hp
      · rw [hself a (mem_numeralPairs hpair).2.1 hnumber] at hpair
        exact .numeral d hpair (hpath₃.trans (hpath₂.trans hpath))
          (hvalue₃.trans (hvalue₂.trans hvalue))
    · obtain ⟨d, rank, a, hpair, hnumber, hpath⟩ := hoperator
      rw [hr₁.same.number] at hnumber
      rw [hself a (mem_operatorPairs hpair).2.1 hnumber] at hpair
      exact .operator d rank hpair (hpath₃.trans hpath)
  · rcases hmixed with ⟨d, a, hpair, hnumber, hpath⟩ | ⟨a, ha, hnumber, hpart⟩
    · rw [hsame₂.number] at hnumber
      rw [hself a (mem_mixedPairs hpair).2.1 hnumber] at hpair
      exact .mixed d hpair hpath
    · have hplaced₂ := placed_of_receives h₂ (placed_of_receives h₁ hm)
      have hn₂mem := (Tree.leaves_sublist_preorder m₂.root).subset hn₂
      have heq : a = n₂ := hplaced₂.eq_of_number (List.mem_filter.1 ha).1 hn₂mem hnumber
      refine .part ?_
      rw [← hsame₂.isMixedPart, ← heq]
      exact hpart

end SurfaceMap
end FormulaMap

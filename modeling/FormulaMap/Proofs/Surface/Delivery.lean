/-
Every pair reaches its leaf.

What joining does to a node is to write its path and what goes with it (`Rewritten`), so
the node is still made from the same element, and a path that was written is only ever
replaced by another one.  A leaf that some step gave a path therefore has one in the end.
The pair that the path comes from can only be the pair that the leaf is in: a leaf is
there once in reading order, so it is in at most one pair.  Together this says exactly
which path a numeral leaf and an operator leaf end up with
(`path_eq_some_iff_of_isNumeral`, `path_eq_some_iff_of_isOperator`).
-/
import FormulaMap.Proofs.Surface.Soundness
import Mathlib.Data.List.Zip

namespace FormulaMap

variable {α : Type}

namespace Join

open SurfaceMap

/-! ## What joining writes -/

/-- The node is left alone, or what joins it to an expression is written anew. -/
inductive Rewritten (a : Node α) : Node α → Prop where
  | same : Rewritten a a
  | written (path : String) (value operator : Option String) (rank : Option Nat) (marks : Marks) :
      Rewritten a
        { a with
          path := some path, value := value, operator := operator, operatorRank := rank
          marks := marks }

namespace Rewritten

variable {a b c : Node α}

theorem trans (h : Rewritten a b) (h' : Rewritten b c) : Rewritten a c := by
  cases h' with
  | same => exact h
  | written p v o r k =>
    cases h with
    | same => exact .written p v o r k
    | written _ _ _ _ _ => exact .written p v o r k

theorem number (h : Rewritten a b) : b.number = a.number := by
  cases h <;> rfl

theorem source (h : Rewritten a b) : b.source = a.source := by
  cases h <;> rfl

theorem kind (h : Rewritten a b) : b.kind = a.kind := by
  cases h <;> rfl

theorem id (h : Rewritten a b) : b.id = a.id := by
  cases h <;> rfl

theorem atom (h : Rewritten a b) : b.atom = a.atom := by
  cases h <;> rfl

theorem text (h : Rewritten a b) : b.text = a.text := by
  cases h <;> rfl

theorem isSome_path (h : Rewritten a b) (ha : a.path.isSome = true) : b.path.isSome = true := by
  cases h with
  | same => exact ha
  | written _ _ _ _ _ => rfl

theorem ite {f : Node α → Node α} (hf : Rewritten a (f a)) (p : Prop) [Decidable p] :
    Rewritten a (if p then f a else a) := by
  split
  · exact hf
  · exact .same

end Rewritten

theorem rewritten_fillNumber (p : String) (v : Option String) (n : Node α) :
    Rewritten n (fillNumber p v n) := by
  cases hpath : n.path with
  | none =>
    have hjoined : n.isJoined = false := by rw [Node.isJoined, Node.joined?, hpath]; rfl
    rw [fillNumber, hjoined]
    exact .written p _ n.operator n.operatorRank n.marks
  | some q =>
    rw [fillNumber, hpath]
    split
    · exact .written q _ n.operator n.operatorRank n.marks
    · exact .written p _ n.operator n.operatorRank n.marks

theorem rewritten_fillOperator (d : OperatorDescriptor) (rank : Nat) (n : Node α) :
    Rewritten n (fillOperator d rank n) :=
  .written d.path n.value _ _ n.marks

section
variable {m m' m'' : SurfaceMap α}

theorem rewritten_trans (h : Changes Rewritten m m') (h' : Changes Rewritten m' m'') :
    Changes Rewritten m m'' :=
  h.trans (fun _ _ _ hab hbc => hab.trans hbc) h'

theorem rewritten_update {f : Node α → Node α} (hf : ∀ n, Rewritten n (f n)) (k : Nat)
    (m : SurfaceMap α) : Changes Rewritten m (m.update k f) :=
  ⟨_, rfl, fun n _ => (hf n).ite _⟩

theorem rewritten_updateAll {f : Node α → Node α} (hf : ∀ n, Rewritten n (f n))
    (numbers : List Nat) (m : SurfaceMap α) : Changes Rewritten m (updateAll numbers f m) :=
  ⟨_, rfl, fun n _ => (hf n).ite _⟩

theorem rewritten_foldl {β : Type} {step : SurfaceMap α → β → SurfaceMap α}
    (hstep : ∀ m x, Changes Rewritten m (step m x)) (xs : List β) (m : SurfaceMap α) :
    Changes Rewritten m (xs.foldl step m) := by
  induction xs generalizing m with
  | nil => exact Changes.refl (fun _ => .same) m
  | cons x xs ih => exact rewritten_trans (hstep m x) (ih (step m x))

/-! ## Steps -/

theorem rewritten_joinNumeral (m : SurfaceMap α) (x : NumeralDescriptor × Node α) :
    Changes Rewritten m (joinNumeral x.1 x.2 m) :=
  rewritten_trans (rewritten_update (fun n => .written _ _ n.operator n.operatorRank n.marks) _ m)
    (rewritten_updateAll (rewritten_fillNumber _ _) _ _)

theorem rewritten_joinOperator (m : SurfaceMap α) (x : (OperatorDescriptor × Nat) × Node α) :
    Changes Rewritten m (joinOperator x.1.1 x.1.2 x.2 m) := by
  refine rewritten_trans (rewritten_update (rewritten_fillOperator x.1.1 x.1.2) _ m)
    (rewritten_updateAll (fun n => ?_) _ _)
  split
  · exact .same
  · exact rewritten_fillOperator x.1.1 x.1.2 n

theorem rewritten_joinPart (p : String) (m : SurfaceMap α) (part : Node α) :
    Changes Rewritten m (joinPart p part m) := by
  unfold joinPart
  split
  · split
    · exact Changes.refl (fun _ => .same) m
    · exact rewritten_trans
        (rewritten_update (fun n => .written _ n.value n.operator n.operatorRank n.marks) _ m)
        (rewritten_updateAll (rewritten_fillNumber _ _) _ _)
  · exact Changes.refl (fun _ => .same) m

theorem rewritten_joinMixed (atoms : List (Node α)) (m : SurfaceMap α)
    (x : MixedDescriptor × Node α) : Changes Rewritten m (joinMixed atoms x.1 x.2 m) :=
  rewritten_trans (rewritten_update (fun n => .written _ _ n.operator n.operatorRank _) _ m)
    (rewritten_trans (rewritten_foldl (rewritten_joinPart x.1.path) _ _)
      (rewritten_updateAll (rewritten_fillNumber _ _) _ _))

/-! ## Passes -/

theorem rewritten_numerals (leaves : List (Node α)) (ds : List NumeralDescriptor)
    (m : SurfaceMap α) : Changes Rewritten m (numerals leaves ds m).1 :=
  rewritten_foldl rewritten_joinNumeral _ m

theorem rewritten_operators (leaves : List (Node α)) (ds : List OperatorDescriptor)
    (m : SurfaceMap α) : Changes Rewritten m (operators leaves ds m).1 :=
  rewritten_foldl rewritten_joinOperator _ m

theorem rewritten_mixedNumbers (leaves : List (Node α)) (ds : List MixedDescriptor)
    (m : SurfaceMap α) : Changes Rewritten m (mixedNumbers leaves ds m).1 :=
  rewritten_foldl (rewritten_joinMixed m.atoms) _ m

/-! ## What a pair gives stays -/

/-- The nodes with this number carry a path. -/
def Carries (k : Nat) (m : SurfaceMap α) : Prop :=
  ∀ n ∈ m.nodes, n.number = k → n.path.isSome = true

theorem Carries.changes {k : Nat} (h : Carries k m) (hm : Changes Rewritten m m') :
    Carries k m' := by
  intro n' hn' hnumber
  obtain ⟨n, hn, hwritten⟩ := hm.exists_of_mem_nodes hn'
  exact hwritten.isSome_path (h n hn (hwritten.number.symm.trans hnumber))

theorem carries_update {k : Nat} {f : Node α → Node α} (hf : ∀ n, (f n).path.isSome = true)
    (m : SurfaceMap α) : Carries k (m.update k f) := by
  intro n' hn' hk
  rw [SurfaceMap.update, SurfaceMap.nodes_mapNodes] at hn'
  obtain ⟨n, -, rfl⟩ := List.mem_map.1 hn'
  split at hk
  · next hn =>
    rw [if_pos hn]
    exact hf n
  · next hn => exact absurd hk hn

/-- One step that gives the path is enough. -/
theorem carries_foldl {β : Type} {step : SurfaceMap α → β → SurfaceMap α}
    (hstep : ∀ m x, Changes Rewritten m (step m x)) {xs : List β} {x : β} (hx : x ∈ xs) {k : Nat}
    (hgives : ∀ m, Carries k (step m x)) (m : SurfaceMap α) : Carries k (xs.foldl step m) := by
  obtain ⟨before, after, rfl⟩ := List.append_of_mem hx
  rw [List.foldl_append, List.foldl_cons]
  exact (hgives _).changes (rewritten_foldl hstep after _)

theorem carries_numerals {e : Expr} {leaves : List (Node α)} {d : NumeralDescriptor} {n : Node α}
    (h : (d, n) ∈ numeralPairs leaves e) (m : SurfaceMap α) :
    Carries n.number (numerals leaves e.numerals m).1 := by
  refine carries_foldl rewritten_joinNumeral h (fun m => ?_) m
  refine Carries.changes (carries_update ?_ m) (rewritten_updateAll (rewritten_fillNumber _ _) _ _)
  exact fun _ => rfl

theorem carries_operators {leaves : List (Node α)} {d : OperatorDescriptor} {rank : Nat}
    {n : Node α} {ds : List OperatorDescriptor} (h : ((d, rank), n) ∈ operatorPairs leaves ds)
    (m : SurfaceMap α) : Carries n.number (operators leaves ds m).1 := by
  refine carries_foldl rewritten_joinOperator h (fun m => ?_) m
  refine Carries.changes (carries_update ?_ m) (rewritten_updateAll (fun n => ?_) _ _)
  · exact fun _ => rfl
  · split
    · exact .same
    · exact rewritten_fillOperator d rank n

end

/-! ## A leaf is in one pair -/

theorem eq_of_mem_zip_right {β γ : Type} {xs : List β} {ys : List γ} (hys : ys.Nodup) {x x' : β}
    {y : γ} (h : (x, y) ∈ xs.zip ys) (h' : (x', y) ∈ xs.zip ys) : x = x' := by
  have hswap : ∀ {z : β}, (z, y) ∈ xs.zip ys → (y, z) ∈ ys.zip xs := by
    intro z hz
    rw [← List.zip_swap]
    exact List.mem_map_of_mem (f := Prod.swap) hz
  have hkeys : (ys.map id).Nodup := by rwa [List.map_id]
  exact congrArg Prod.snd (eq_of_mem_zip hkeys (hswap h) (hswap h') rfl)

theorem eq_of_mem_numeralPairs_right {leaves : List (Node α)} (hleaves : leaves.Nodup) {e : Expr}
    {d d' : NumeralDescriptor} {n : Node α} (h : (d, n) ∈ numeralPairs leaves e)
    (h' : (d', n) ∈ numeralPairs leaves e) : d = d' :=
  eq_of_mem_zip_right (hleaves.filter _) h h'

/-- A leaf is in one bucket, and there it is in one pair. -/
theorem eq_of_mem_operatorPairs_right {leaves : List (Node α)} (hleaves : leaves.Nodup)
    {ds : List OperatorDescriptor} {x x' : OperatorDescriptor × Nat} {n : Node α}
    (h : (x, n) ∈ operatorPairs leaves ds) (h' : (x', n) ∈ operatorPairs leaves ds) : x = x' := by
  obtain ⟨b, -, hb⟩ := List.mem_flatMap.1 h
  obtain ⟨b', -, hb'⟩ := List.mem_flatMap.1 h'
  have hbucket := (mem_bucketPairs hb).2.2.2.2
  have hbucket' := (mem_bucketPairs hb').2.2.2.2
  obtain rfl := hbucket.symm.trans hbucket'
  exact eq_of_mem_zip_right ((hleaves.filter _).filter _) hb hb'

end Join

namespace SurfaceMap

open Join

variable [Coordinate α] {t : Tolerances α} {m : SurfaceMap α} {e : Expr} {n n' : Node α}

/-- Joining writes paths and what goes with them, and nothing else. -/
theorem rewritten_join (t : Tolerances α) (e : Expr) (m : SurfaceMap α) :
    Changes Rewritten m (m.join t e).1 :=
  rewritten_trans (rewritten_numerals _ _ m)
    (rewritten_trans (rewritten_operators _ _ _) (rewritten_mixedNumbers _ _ _))

theorem nodup_leaves (hm : Placed m.root) (t : Tolerances α) : (m.leaves t).Nodup :=
  (ReadingOrder.leaves_perm t.columnOverlap m.root).nodup_iff.2
    ((Tree.leaves_sublist_preorder m.root).nodup hm.distinct.of_map)

/-- A joined leaf with a path got it from the pair of the leaf that it was. -/
theorem fromPair_of_number (hm : m.Ready) (hn : n ∈ m.root.leaves)
    (hn' : n' ∈ (m.join t e).1.root.leaves) (hnumber : n'.number = n.number)
    (hp : n'.path ≠ none) : FromPair (m.leaves t) e n n' := by
  obtain ⟨a, ha, hsame, hpair⟩ := fromPair_of_mem_leaves_join hm.placed hm.fresh hn' hp
  have heq : a = n := hm.placed.eq_of_number ((Tree.leaves_sublist_preorder m.root).subset ha)
    ((Tree.leaves_sublist_preorder m.root).subset hn) (hsame.number.symm.trans hnumber)
  rw [← heq]
  exact hpair

theorem path_of_mem_numeralPairs (hm : m.Ready) {d : NumeralDescriptor}
    (h : (d, n) ∈ numeralPairs (m.leaves t) e) (hn' : n' ∈ (m.join t e).1.root.leaves)
    (hnumber : n'.number = n.number) : n'.path = some d.path := by
  have hcarries : Carries n.number (m.join t e).1 :=
    ((carries_numerals h m).changes (rewritten_operators _ _ _)).changes
      (rewritten_mixedNumbers _ _ _)
  have hsome := hcarries n' ((Tree.leaves_sublist_preorder _).subset hn') hnumber
  obtain ⟨-, hmem, hkind⟩ := mem_numeralPairs h
  have hpair := fromPair_of_number hm ((mem_leaves_iff t m).1 hmem) hn' hnumber
    (Option.isSome_iff_ne_none.1 hsome)
  obtain ⟨d', hd', hpath, -⟩ := hpair.numeral_of hkind
  rw [eq_of_mem_numeralPairs_right (nodup_leaves hm.placed t) h hd']
  exact hpath

theorem path_of_mem_operatorPairs (hm : m.Ready) {d : OperatorDescriptor} {rank : Nat}
    (h : ((d, rank), n) ∈ operatorPairs (m.leaves t) e.operators)
    (hn' : n' ∈ (m.join t e).1.root.leaves) (hnumber : n'.number = n.number) :
    n'.path = some d.path := by
  have hcarries : Carries n.number (m.join t e).1 :=
    (carries_operators h (numerals (m.leaves t) e.numerals m).1).changes
      (rewritten_mixedNumbers _ _ _)
  have hsome := hcarries n' ((Tree.leaves_sublist_preorder _).subset hn') hnumber
  obtain ⟨-, hmem, hkind, -⟩ := mem_operatorPairs h
  have hleaf := (mem_leaves_iff t m).1 hmem
  have hpair := fromPair_of_number hm hleaf hn' hnumber (Option.isSome_iff_ne_none.1 hsome)
  obtain ⟨d', rank', hd', hpath⟩ := hpair.operator_of
    (hm.coherent n ((Tree.leaves_sublist_preorder m.root).subset hleaf)) hkind
  obtain ⟨rfl, -⟩ := Prod.mk.inj (eq_of_mem_operatorPairs_right (nodup_leaves hm.placed t) h hd')
  exact hpath

/-- A numeral leaf carries a path exactly when a pair gives it that path. -/
theorem path_eq_some_iff_of_isNumeral (hm : m.Ready) (hn : n ∈ m.root.leaves)
    (hkind : isNumeralLeaf n = true) (hn' : n' ∈ (m.join t e).1.root.leaves)
    (hnumber : n'.number = n.number) {p : String} :
    n'.path = some p ↔ ∃ d, (d, n) ∈ numeralPairs (m.leaves t) e ∧ d.path = p := by
  constructor
  · intro hp
    have hpair := fromPair_of_number hm hn hn' hnumber (by rw [hp]; exact Option.some_ne_none p)
    obtain ⟨d, hmem, hpath, -⟩ := hpair.numeral_of hkind
    exact ⟨d, hmem, Option.some.inj (hpath.symm.trans hp)⟩
  · rintro ⟨d, hmem, rfl⟩
    exact path_of_mem_numeralPairs hm hmem hn' hnumber

/-- An operator leaf carries a path exactly when a pair gives it that path. -/
theorem path_eq_some_iff_of_isOperator (hm : m.Ready) (hn : n ∈ m.root.leaves)
    (hkind : n.kind.isOperator = true) (hn' : n' ∈ (m.join t e).1.root.leaves)
    (hnumber : n'.number = n.number) {p : String} :
    n'.path = some p ↔
      ∃ d rank, ((d, rank), n) ∈ operatorPairs (m.leaves t) e.operators ∧ d.path = p := by
  constructor
  · intro hp
    have hpair := fromPair_of_number hm hn hn' hnumber (by rw [hp]; exact Option.some_ne_none p)
    obtain ⟨d, rank, hmem, hpath⟩ := hpair.operator_of
      (hm.coherent n ((Tree.leaves_sublist_preorder m.root).subset hn)) hkind
    exact ⟨d, rank, hmem, Option.some.inj (hpath.symm.trans hp)⟩
  · rintro ⟨d, rank, hmem, rfl⟩
    exact path_of_mem_operatorPairs hm hmem hn' hnumber

end SurfaceMap
end FormulaMap

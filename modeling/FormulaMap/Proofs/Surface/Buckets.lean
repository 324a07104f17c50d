/-
Operators are paired bucket by bucket.

Joining operators goes through the buckets one after another, and every pair writes onto
its leaf and onto nodes above it.  When no leaf stands above another, a pair reaches no
leaf but its own, so what a leaf carries in the end is what the last of its pairs wrote
(`nodeAt?_foldl_joinOperator`), and all of its pairs are of its own bucket
(`filter_operatorPairs`).  From this it is read off that descriptors and leaves are paired
by position within a bucket, and that other buckets do not matter.

A bucket has a name, and the name of the signs is a text that a leaf can have as well.
Buckets in the sense of their names are always kept apart; signs are kept apart from
symbols as long as no symbol bears the name of the signs (`operators_pairsByPosition`).
-/
import FormulaMap.Proofs.Surface.Fractions
import FormulaMap.Proofs.Surface.Pairing
import Mathlib.Algebra.BigOperators.Group.Finset.Basic

namespace FormulaMap

/-! ## Lists with one part that counts -/

theorem nodup_eraseDups {β : Type} [DecidableEq β] : ∀ xs : List β, xs.eraseDups.Nodup
  | [] => List.nodup_nil
  | x :: xs => by
    rw [List.eraseDups_cons, List.nodup_cons, List.mem_eraseDups, List.mem_filter]
    exact ⟨fun h => by simp at h, nodup_eraseDups _⟩
  termination_by xs => xs.length
  decreasing_by exact Nat.lt_succ_of_le (List.length_filter_le _ _)

theorem flatMap_eq_of_forall_ne {β γ : Type} {bs : List β} (hbs : bs.Nodup) {f : β → List γ} {c : β}
    (hne : ∀ b ∈ bs, b ≠ c → f b = []) (hc : c ∉ bs → f c = []) : bs.flatMap f = f c := by
  induction bs with
  | nil => exact (hc List.not_mem_nil).symm
  | cons b bs ih =>
    obtain ⟨hb, hbs⟩ := List.nodup_cons.1 hbs
    rw [List.flatMap_cons]
    by_cases hbc : b = c
    · subst hbc
      have hrest : bs.flatMap f = [] := List.flatMap_eq_nil_iff.2 fun b' hb' =>
        hne b' (List.mem_cons_of_mem b hb') fun heq => hb (heq ▸ hb')
      rw [hrest, List.append_nil]
    · rw [hne b List.mem_cons_self hbc, List.nil_append]
      refine ih hbs (fun b' hb' => hne b' (List.mem_cons_of_mem b hb')) fun hcbs => hc ?_
      exact fun hmem => (List.mem_cons.1 hmem).elim (fun heq => hbc heq.symm) hcbs

variable {α : Type}

namespace Join

open SurfaceMap

/-! ## Buckets -/

/-- What operators are told apart by: signs are by themselves, and all else goes by its
symbol. -/
inductive Bucket where
  | sign
  | symbol (s : String)
  deriving DecidableEq

namespace Bucket

def ofDescriptor (d : OperatorDescriptor) : Bucket :=
  if normalizeOperator d.symbol = "-" ∧ d.arity = 1 then sign else symbol (normalizeOperator d.symbol)

def ofNode (n : Node α) : Bucket :=
  if n.kind = .minusUnary then sign else symbol (normalizeOperator n.text)

/-- What joining calls a bucket. -/
def name : Bucket → String
  | sign => signBucket
  | symbol s => s

theorem name_ofDescriptor (d : OperatorDescriptor) :
    (ofDescriptor d).name = bucketOfDescriptor d := by
  unfold ofDescriptor bucketOfDescriptor
  dsimp only
  by_cases h : normalizeOperator d.symbol = "-" ∧ d.arity = 1
  · rw [if_pos h, if_pos (by simpa using h)]
    rfl
  · rw [if_neg h, if_neg (by simpa using h)]
    rfl

theorem name_ofNode (n : Node α) : (ofNode n).name = bucketOfNode n := by
  unfold ofNode bucketOfNode
  split <;> rfl

/-- The bucket with a name, that of the signs where there are two. -/
def ofName (s : String) : Bucket := if s = signBucket then sign else symbol s

theorem name_ofName (s : String) : (ofName s).name = s := by
  unfold ofName
  split
  · next h => exact h.symm
  · rfl

theorem ofName_ne (s : String) : ofName s ≠ symbol signBucket := by
  unfold ofName
  split
  · exact Bucket.noConfusion
  · next h => exact fun heq => h (symbol.inj heq)

theorem eq_of_name_eq {a b : Bucket} (ha : a ≠ symbol signBucket) (hb : b ≠ symbol signBucket)
    (h : a.name = b.name) : a = b := by
  cases a <;> cases b
  · rfl
  · exact absurd (congrArg symbol (show signBucket = _ from h).symm) hb
  · exact absurd (congrArg symbol (show _ = signBucket from h)) ha
  · exact congrArg symbol h

end Bucket

section
variable {κ : Type} [DecidableEq κ] (ofD : OperatorDescriptor → κ) (ofN : Node α → κ)

/-- The descriptors of a bucket, in order. -/
def descriptorsIn (b : κ) (ds : List OperatorDescriptor) : List OperatorDescriptor :=
  ds.filter (ofD · = b)

/-- The operators of a bucket among the leaves, in order. -/
def leavesIn (b : κ) (leaves : List (Node α)) : List (Node α) :=
  (leaves.filter (·.kind.isOperator)).filter (ofN · = b)

/-- In every bucket the descriptor at a position is written onto the leaf at that position,
with the number of descriptors of the bucket before it that have the same path; of a leaf
that is listed more than once the last position counts.  The leaves that are left over stay
as they are. -/
structure ByPosition (leaves : List (Node α)) (ds : List OperatorDescriptor)
    (joined : SurfaceMap α × Nat) : Prop where
  paired : ∀ b j d n, (descriptorsIn ofD b ds)[j]? = some d → (leavesIn ofN b leaves)[j]? = some n →
    (∀ k, j < k → k < (descriptorsIn ofD b ds).length → (leavesIn ofN b leaves)[k]? ≠ some n) →
    joined.1.nodeAt? n.number =
      some { n with
        path := some d.path
        operator := some d.symbol
        operatorRank := some (((descriptorsIn ofD b ds).take j).countP fun e => e.path == d.path) }
  left : ∀ n ∈ leaves,
    (∀ b j, j < (descriptorsIn ofD b ds).length → (leavesIn ofN b leaves)[j]? ≠ some n) →
    joined.1.nodeAt? n.number = some n
  count : joined.2 = ∑ b ∈ (ds.map ofD).toFinset,
    min (descriptorsIn ofD b ds).length (leavesIn ofN b leaves).length

/-- On the inputs that are admitted operators are paired by position, and what the leaves of
a bucket receive depends on nothing but the descriptors and the leaves of the bucket. -/
def PairsByPosition
    (Admits : SurfaceMap α → List (Node α) → List OperatorDescriptor → Prop) : Prop :=
  ∀ m leaves ds, Admits m leaves ds →
    ByPosition ofD ofN leaves ds (operators leaves ds m) ∧
      ∀ m' leaves' ds' b, Admits m' leaves' ds' →
        descriptorsIn ofD b ds' = descriptorsIn ofD b ds →
        leavesIn ofN b leaves' = leavesIn ofN b leaves → ∀ n ∈ leavesIn ofN b leaves,
          (operators leaves' ds' m').1.nodeAt? n.number =
            (operators leaves ds m).1.nodeAt? n.number

end

section
variable {κ : Type} [DecidableEq κ] {ofD : OperatorDescriptor → κ} {ofN : Node α → κ}
  {leaves leaves' : List (Node α)} {ds ds' : List OperatorDescriptor} {b : κ} {n : Node α}

theorem mem_leaves_of_mem_leavesIn (hn : n ∈ leavesIn ofN b leaves) : n ∈ leaves ∧ ofN n = b := by
  obtain ⟨hmem, hbucket⟩ := List.mem_filter.1 hn
  exact ⟨(List.mem_filter.1 hmem).1, of_decide_eq_true hbucket⟩

/-- A leaf stands at its last position before a bound, or at no position. -/
theorem exists_last_or (n : Node α) (ns : List (Node α)) (bound : Nat) :
    (∃ j, j < bound ∧ ns[j]? = some n ∧ ∀ k, j < k → k < bound → ns[k]? ≠ some n) ∨
      ∀ j, j < bound → ns[j]? ≠ some n := by
  induction bound with
  | zero => exact Or.inr fun j hj => absurd hj (Nat.not_lt_zero j)
  | succ bound ih =>
    by_cases hbound : ns[bound]? = some n
    · exact Or.inl ⟨bound, Nat.lt_succ_self bound, hbound, fun k hk hlt => by omega⟩
    · rcases ih with ⟨j, hj, hn, hlast⟩ | hnone
      · refine Or.inl ⟨j, Nat.lt_succ_of_lt hj, hn, fun k hk hlt => ?_⟩
        rcases Nat.lt_succ_iff_lt_or_eq.1 hlt with hlt | rfl
        · exact hlast k hk hlt
        · exact hbound
      · refine Or.inr fun j hj => ?_
        rcases Nat.lt_succ_iff_lt_or_eq.1 hj with hj | rfl
        · exact hnone j hj
        · exact hbound

/-- Pairing by position decides what the leaves of a bucket carry in the end. -/
theorem ByPosition.nodeAt?_eq {joined joined' : SurfaceMap α × Nat}
    (h : ByPosition ofD ofN leaves ds joined) (h' : ByPosition ofD ofN leaves' ds' joined')
    (hds : descriptorsIn ofD b ds' = descriptorsIn ofD b ds)
    (hleaves : leavesIn ofN b leaves' = leavesIn ofN b leaves) (hn : n ∈ leavesIn ofN b leaves) :
    joined'.1.nodeAt? n.number = joined.1.nodeAt? n.number := by
  have hmem := mem_leaves_of_mem_leavesIn hn
  have hmem' := mem_leaves_of_mem_leavesIn (hleaves ▸ hn)
  rcases exists_last_or n (leavesIn ofN b leaves) (descriptorsIn ofD b ds).length with
    ⟨j, hj, hleaf, hlast⟩ | hnone
  · obtain ⟨d, hd⟩ : ∃ d, (descriptorsIn ofD b ds)[j]? = some d := ⟨_, List.getElem?_eq_getElem hj⟩
    rw [h.paired b j d n hd hleaf hlast]
    rw [← hds] at hd hlast ⊢
    rw [← hleaves] at hleaf hlast
    exact h'.paired b j d n hd hleaf hlast
  · -- the leaf is in no other bucket
    have hnone' : ∀ c j, j < (descriptorsIn ofD c ds).length →
        (leavesIn ofN c leaves)[j]? ≠ some n := by
      intro c j hj hleaf
      have hc := (mem_leaves_of_mem_leavesIn (List.mem_of_getElem? hleaf)).2
      obtain rfl := hmem.2.symm.trans hc
      exact hnone j hj hleaf
    rw [h.left n hmem.1 hnone', h'.left n hmem'.1 fun c j hj hleaf => ?_]
    have hc := (mem_leaves_of_mem_leavesIn (List.mem_of_getElem? hleaf)).2
    obtain rfl := hmem.2.symm.trans hc
    rw [hleaves] at hleaf
    rw [hds] at hj
    exact hnone j hj hleaf

end

/-! ## The pairs of a bucket -/

theorem bucketPairs_eq (leaves : List (Node α)) (ds : List OperatorDescriptor) (b : String) :
    bucketPairs leaves ds b =
      (ranked (descriptorsIn bucketOfDescriptor b ds)).zip (leavesIn bucketOfNode b leaves) := rfl

theorem length_ranked (ds : List OperatorDescriptor) : (ranked ds).length = ds.length := by
  rw [← List.length_map Prod.fst, map_fst_ranked]

theorem getElem?_ranked (ds : List OperatorDescriptor) (j : Nat) :
    (ranked ds)[j]? = ds[j]?.map fun d => (d, (ds.take j).countP fun e => e.path == d.path) := by
  rw [ranked, List.getElem?_map, List.getElem?_zipIdx, Option.map_map, Nat.zero_add]
  rfl

theorem getElem?_bucketPairs {leaves : List (Node α)} {ds : List OperatorDescriptor} {b : String}
    {j : Nat} {p : (OperatorDescriptor × Nat) × Node α}
    (h : (bucketPairs leaves ds b)[j]? = some p) :
    j < (descriptorsIn bucketOfDescriptor b ds).length ∧
      (leavesIn bucketOfNode b leaves)[j]? = some p.2 := by
  rw [bucketPairs_eq, List.getElem?_zip_eq_some] at h
  obtain ⟨hj, -⟩ := List.getElem?_eq_some_iff.1 h.1
  rw [length_ranked] at hj
  exact ⟨hj, h.2⟩

/-- There are as many pairs as the shorter side of each bucket has members. -/
theorem length_operatorPairs (leaves : List (Node α)) (ds : List OperatorDescriptor) :
    (operatorPairs leaves ds).length = ∑ b ∈ (ds.map bucketOfDescriptor).toFinset,
      min (descriptorsIn bucketOfDescriptor b ds).length (leavesIn bucketOfNode b leaves).length := by
  have hlength : ∀ b, (bucketPairs leaves ds b).length =
      min (descriptorsIn bucketOfDescriptor b ds).length
        (leavesIn bucketOfNode b leaves).length := fun b => by
    rw [bucketPairs_eq, List.length_zip, length_ranked]
  have hbuckets : (ds.map bucketOfDescriptor).toFinset =
      (ds.map bucketOfDescriptor).eraseDups.toFinset := by
    ext b
    rw [List.mem_toFinset, List.mem_toFinset, List.mem_eraseDups]
  rw [operatorPairs, List.length_flatMap, hbuckets,
    List.sum_toFinset _ (nodup_eraseDups _), List.map_congr_left fun b _ => hlength b]

/-! ## What a leaf receives -/

/-- What the last of the pairs of a node writes onto it. -/
def written (pairs : List ((OperatorDescriptor × Nat) × Node α)) (n : Node α) : Node α :=
  match (pairs.filter (·.2.number = n.number)).getLast? with
  | some p => fillOperator p.1.1 p.1.2 n
  | none => n

section
variable {pairs : List ((OperatorDescriptor × Nat) × Node α)}
  {p : (OperatorDescriptor × Nat) × Node α} {n : Node α}

theorem written_append_singleton :
    written (pairs ++ [p]) n =
      if p.2.number = n.number then fillOperator p.1.1 p.1.2 n else written pairs n := by
  unfold written
  rw [List.filter_append]
  by_cases hp : p.2.number = n.number
  · rw [List.filter_cons_of_pos (by simpa using hp), List.filter_nil, List.getLast?_concat,
      if_pos hp]
  · rw [List.filter_cons_of_neg (by simpa using hp), List.filter_nil, List.append_nil, if_neg hp]

/-- The next pair leaves no trace of what was written before. -/
theorem fillOperator_written (d : OperatorDescriptor) (rank : Nat) :
    fillOperator d rank (written pairs n) = fillOperator d rank n := by
  unfold written
  split <;> rfl

theorem written_of_forall_ne (h : ∀ q ∈ pairs, q.2.number ≠ n.number) : written pairs n = n := by
  have hnone : pairs.filter (·.2.number = n.number) = [] :=
    List.filter_eq_nil_iff.2 fun q hq => by simpa using h q hq
  rw [written, hnone]
  rfl

theorem written_of_last {j : Nat} (hp : pairs[j]? = some p) (hnumber : p.2.number = n.number)
    (hlast : ∀ k q, j < k → pairs[k]? = some q → q.2.number ≠ n.number) :
    written pairs n = fillOperator p.1.1 p.1.2 n := by
  induction pairs using List.reverseRecOn with
  | nil => simp at hp
  | append_singleton pairs q ih =>
    rw [written_append_singleton]
    rcases Nat.lt_trichotomy j pairs.length with hj | rfl | hj
    · rw [List.getElem?_append_left hj] at hp
      have hq := hlast pairs.length q hj List.getElem?_concat_length
      rw [if_neg hq]
      refine ih hp fun k q' hk hq' => hlast k q' hk ?_
      rw [List.getElem?_append_left (List.getElem?_eq_some_iff.1 hq').1]
      exact hq'
    · rw [List.getElem?_concat_length, Option.some.injEq] at hp
      rw [hp, if_pos hnumber]
    · rw [List.getElem?_eq_none (by simpa using Nat.succ_le_of_lt hj)] at hp
      exact absurd hp (by simp)

end

/-- A pair whose leaf does not lie below a node reaches the node only when it is the leaf. -/
theorem nodeAt?_joinOperator {leaf : Node α} {k : Nat} (hk : k ∉ leaf.above)
    (d : OperatorDescriptor) (rank : Nat) (m : SurfaceMap α) :
    (joinOperator d rank leaf m).nodeAt? k =
      (m.nodeAt? k).map fun n => if leaf.number = k then fillOperator d rank n else n := by
  have hkept : ∀ n : Node α, (if n.isJoined then n else fillOperator d rank n).number = n.number :=
    fun n => by split <;> rfl
  unfold joinOperator updateAll update
  dsimp only
  rw [nodeAt?_mapNodes (fun n => by split; exacts [hkept n, rfl]),
    nodeAt?_mapNodes (fun n => by split <;> rfl), Option.map_map]
  refine Option.map_congr fun n hn => ?_
  have hnumber := number_of_nodeAt? hn
  have hfilled : (if n.number = leaf.number then fillOperator d rank n else n).number = k := by
    split <;> exact hnumber
  have hnot : ¬ (enclosing (·.kind = leaf.kind) m leaf).contains k = true := fun h =>
    hk ((List.takeWhile_sublist _).subset (List.contains_iff_mem.1 h))
  rw [Function.comp_apply, hfilled, if_neg hnot, hnumber]
  by_cases h : leaf.number = k
  · rw [if_pos h.symm, if_pos h]
  · rw [if_neg fun heq => h heq.symm, if_neg h]

/-- A node that no leaf lies below carries in the end what its last pair wrote. -/
theorem nodeAt?_foldl_joinOperator {k : Nat}
    (pairs : List ((OperatorDescriptor × Nat) × Node α)) (hk : ∀ p ∈ pairs, k ∉ p.2.above)
    (m : SurfaceMap α) :
    (pairs.foldl (fun m p => joinOperator p.1.1 p.1.2 p.2 m) m).nodeAt? k =
      (m.nodeAt? k).map (written pairs) := by
  induction pairs using List.reverseRecOn with
  | nil => exact Option.map_id'.symm
  | append_singleton pairs p ih =>
    rw [List.foldl_append, List.foldl_cons, List.foldl_nil,
      nodeAt?_joinOperator (hk p (by simp)), ih fun q hq => hk q (List.mem_append_left _ hq),
      Option.map_map]
    refine Option.map_congr fun n hn => ?_
    rw [Function.comp_apply, written_append_singleton, number_of_nodeAt? hn]
    split
    · exact fillOperator_written _ _
    · rfl

/-! ## Leaves apart -/

/-- Leaves of a map, none of which stands above another. -/
structure Apart (m : SurfaceMap α) (leaves : List (Node α)) : Prop where
  distinct : (m.nodes.map (·.number)).Nodup
  mem : ∀ n ∈ leaves, n ∈ m.nodes
  apart : ∀ a ∈ leaves, ∀ b ∈ leaves, a.isAbove b = false

section
variable {m : SurfaceMap α} {leaves : List (Node α)} {ds : List OperatorDescriptor} {b : String}
  {n : Node α}

theorem Apart.eq_of_number (h : Apart m leaves) {a : Node α} (ha : a ∈ leaves) (hn : n ∈ leaves)
    (hnumber : a.number = n.number) : a = n :=
  List.inj_on_of_nodup_map h.distinct (h.mem a ha) (h.mem n hn) hnumber

/-- The pairs of a leaf are of its bucket. -/
theorem filter_operatorPairs (h : Apart m leaves) (hn : n ∈ leaves) :
    (operatorPairs leaves ds).filter (·.2.number = n.number) =
      (bucketPairs leaves ds (bucketOfNode n)).filter (·.2.number = n.number) := by
  rw [operatorPairs, List.filter_flatMap]
  refine flatMap_eq_of_forall_ne (nodup_eraseDups _) (fun b _ hb => ?_) fun hnone => ?_
  · refine List.filter_eq_nil_iff.2 fun p hp htest => hb ?_
    obtain ⟨-, -, hmem, -, hbucket⟩ := mem_bucketPairs hp
    rw [← hbucket, h.eq_of_number hmem hn (of_decide_eq_true htest)]
  · have hempty : bucketPairs leaves ds (bucketOfNode n) = [] := by
      refine List.eq_nil_iff_forall_not_mem.2 fun p hp => hnone ?_
      obtain ⟨hd, hbucket, -⟩ := mem_bucketPairs hp
      exact List.mem_eraseDups.2 (List.mem_map.2 ⟨p.1.1, hd, hbucket⟩)
    rw [hempty, List.filter_nil]

/-- A leaf carries in the end what its last pair in its bucket wrote. -/
theorem nodeAt?_operators (h : Apart m leaves) (hn : n ∈ leaves) :
    (operators leaves ds m).1.nodeAt? n.number =
      some (written (bucketPairs leaves ds (bucketOfNode n)) n) := by
  have hbelow : ∀ p ∈ operatorPairs leaves ds, n.number ∉ p.2.above := by
    intro p hp habove
    have hisAbove := h.apart n hn p.2 (mem_operatorPairs hp).2.1
    rw [Node.isAbove, List.contains_iff_mem.2 habove] at hisAbove
    exact absurd hisAbove (by decide)
  have hfound : m.nodeAt? n.number = some n := find?_number h.distinct (h.mem n hn)
  have hfold := nodeAt?_foldl_joinOperator (operatorPairs leaves ds) hbelow m
  rw [hfound, Option.map_some, written, filter_operatorPairs h hn] at hfold
  exact hfold

/-- Buckets that have a name of their own are kept apart. -/
theorem byPosition_names (h : Apart m leaves) (ds : List OperatorDescriptor) :
    ByPosition bucketOfDescriptor bucketOfNode leaves ds (operators leaves ds m) where
  paired b j d n hd hn hlast := by
    obtain ⟨hmem, rfl⟩ := mem_leaves_of_mem_leavesIn (List.mem_of_getElem? hn)
    have hpair : (bucketPairs leaves ds (bucketOfNode n))[j]? = some ((d, _), n) :=
      List.getElem?_zip_eq_some.2 ⟨(getElem?_ranked _ j).trans (congrArg _ hd), hn⟩
    rw [nodeAt?_operators h hmem, written_of_last hpair rfl fun k q hk hq hnumber => ?_]
    · rfl
    · obtain ⟨hlength, hleaf⟩ := getElem?_bucketPairs hq
      have hq' := (mem_leaves_of_mem_leavesIn (List.mem_of_getElem? hleaf)).1
      exact hlast k hk hlength (h.eq_of_number hq' hmem hnumber ▸ hleaf)
  left n hn hnone := by
    rw [nodeAt?_operators h hn, written_of_forall_ne fun q hq hnumber => ?_]
    obtain ⟨j, hj⟩ := List.getElem?_of_mem hq
    obtain ⟨hlength, hleaf⟩ := getElem?_bucketPairs hj
    have hq' := (mem_leaves_of_mem_leavesIn (List.mem_of_getElem? hleaf)).1
    exact hnone _ j hlength (h.eq_of_number hq' hn hnumber ▸ hleaf)
  count := length_operatorPairs leaves ds

end

/-! ## Signs and symbols -/

/-- No symbol, of a descriptor or of an operator among the leaves, bears the name of the
signs. -/
structure Separate (leaves : List (Node α)) (ds : List OperatorDescriptor) : Prop where
  descriptors : ∀ d ∈ ds, Bucket.ofDescriptor d ≠ .symbol signBucket
  leaves : ∀ n ∈ leaves, n.kind.isOperator = true → Bucket.ofNode n ≠ .symbol signBucket

section
variable {m : SurfaceMap α} {leaves : List (Node α)} {ds : List OperatorDescriptor} {b : Bucket}

theorem Separate.descriptorsIn_eq (h : Separate leaves ds) (hb : b ≠ .symbol signBucket) :
    descriptorsIn Bucket.ofDescriptor b ds = descriptorsIn bucketOfDescriptor b.name ds := by
  refine List.filter_congr fun d hd => ?_
  rw [decide_eq_decide, ← Bucket.name_ofDescriptor]
  exact ⟨congrArg Bucket.name, Bucket.eq_of_name_eq (h.descriptors d hd) hb⟩

theorem Separate.leavesIn_eq (h : Separate leaves ds) (hb : b ≠ .symbol signBucket) :
    leavesIn Bucket.ofNode b leaves = leavesIn bucketOfNode b.name leaves := by
  refine List.filter_congr fun n hn => ?_
  obtain ⟨hmem, hkind⟩ := List.mem_filter.1 hn
  rw [decide_eq_decide, ← Bucket.name_ofNode]
  exact ⟨congrArg Bucket.name, Bucket.eq_of_name_eq (h.leaves n hmem hkind) hb⟩

theorem Separate.ne_of_mem (h : Separate leaves ds) (hb : b ∈ ds.map Bucket.ofDescriptor) :
    b ≠ .symbol signBucket := by
  obtain ⟨d, hd, rfl⟩ := List.mem_map.1 hb
  exact h.descriptors d hd

/-- With separate buckets pairing by the names is pairing by the buckets. -/
theorem Separate.byPosition (h : Separate leaves ds) {joined : SurfaceMap α × Nat}
    (hnames : ByPosition bucketOfDescriptor bucketOfNode leaves ds joined) :
    ByPosition Bucket.ofDescriptor Bucket.ofNode leaves ds joined where
  paired b j d n hd hn hlast := by
    obtain ⟨hmem, hbucket⟩ := List.mem_filter.1 (List.mem_of_getElem? hd)
    have hb := h.ne_of_mem (List.mem_map.2 ⟨d, hmem, of_decide_eq_true hbucket⟩)
    rw [h.descriptorsIn_eq hb] at hd hlast ⊢
    rw [h.leavesIn_eq hb] at hn hlast
    exact hnames.paired b.name j d n hd hn hlast
  left n hn hnone := by
    refine hnames.left n hn fun s j hj => ?_
    have hs := hnone (Bucket.ofName s) j
    rw [h.descriptorsIn_eq (Bucket.ofName_ne s), h.leavesIn_eq (Bucket.ofName_ne s),
      Bucket.name_ofName] at hs
    exact hs hj
  count := by
    have hnames' : (ds.map bucketOfDescriptor).toFinset =
        (ds.map Bucket.ofDescriptor).toFinset.image Bucket.name := by
      ext s
      simp [Bucket.name_ofDescriptor]
    have hinjective : Set.InjOn Bucket.name (ds.map Bucket.ofDescriptor).toFinset :=
      fun a ha b hb => Bucket.eq_of_name_eq (h.ne_of_mem (List.mem_toFinset.1 ha))
        (h.ne_of_mem (List.mem_toFinset.1 hb))
    rw [hnames.count, hnames', Finset.sum_image hinjective]
    refine Finset.sum_congr rfl fun b hb => ?_
    have hne := h.ne_of_mem (List.mem_toFinset.1 hb)
    rw [h.descriptorsIn_eq hne, h.leavesIn_eq hne]

end

/-- Operators are paired by position within the buckets that have one name, and within the
buckets themselves where no symbol bears the name of the signs. -/
theorem operators_pairsByPosition :
    PairsByPosition (α := α) bucketOfDescriptor bucketOfNode (fun m leaves _ => Apart m leaves) ∧
      PairsByPosition (α := α) Bucket.ofDescriptor Bucket.ofNode
        fun m leaves ds => Apart m leaves ∧ Separate leaves ds := by
  constructor
  · intro m leaves ds h
    have hpaired := byPosition_names h ds
    exact ⟨hpaired, fun m' leaves' ds' b h' hds hleaves n hn =>
      hpaired.nodeAt?_eq (byPosition_names h' ds') hds hleaves hn⟩
  · rintro m leaves ds ⟨h, hseparate⟩
    have hpaired := hseparate.byPosition (byPosition_names h ds)
    refine ⟨hpaired, ?_⟩
    rintro m' leaves' ds' b ⟨h', hseparate'⟩ hds hleaves n hn
    exact hpaired.nodeAt?_eq (hseparate'.byPosition (byPosition_names h' ds')) hds hleaves hn

namespace TwoProducts

/-- Two times three plus four times five, with two spellings of the times. -/
def leaves : List (Node Rat) :=
  [ReadingOrder.glyph 1 .num "2" ⟨0, 0, 10, 10⟩, ReadingOrder.glyph 2 .binaryOp "⋅" ⟨10, 0, 20, 10⟩,
    ReadingOrder.glyph 3 .num "3" ⟨20, 0, 30, 10⟩, ReadingOrder.glyph 4 .binaryOp "+" ⟨30, 0, 40, 10⟩,
    ReadingOrder.glyph 5 .num "4" ⟨40, 0, 50, 10⟩, ReadingOrder.glyph 6 .binaryOp "×" ⟨50, 0, 60, 10⟩,
    ReadingOrder.glyph 7 .num "5" ⟨60, 0, 70, 10⟩]

def map : SurfaceMap Rat where
  root := .node (ReadingOrder.glyph 0 .root "" ⟨0, 0, 70, 10⟩) (leaves.map fun n => .node n [])
  origin := ⟨0, 0, 70, 10⟩
  container := []

def descriptors : List OperatorDescriptor :=
  [⟨"term[0]", "*", 0, 2⟩, ⟨"root", "+", 1, 2⟩, ⟨"term[1]", "*", 2, 2⟩]

theorem second_times_by_position :
    (Apart map leaves ∧ Separate leaves descriptors) ∧
      (descriptorsIn Bucket.ofDescriptor (.symbol "*") descriptors)[1]? =
        some ⟨"term[1]", "*", 2, 2⟩ ∧
      (leavesIn Bucket.ofNode (.symbol "*") leaves)[1]? =
        some (ReadingOrder.glyph 6 .binaryOp "×" ⟨50, 0, 60, 10⟩) ∧
      (operators leaves descriptors map).1.nodeAt? 6 =
        some { ReadingOrder.glyph 6 .binaryOp "×" ⟨50, 0, 60, 10⟩ with
          path := some "term[1]", operator := some "*", operatorRank := some 0 } := by
  have hadmitted : Apart map leaves ∧ Separate leaves descriptors := by
    constructor <;> constructor <;> decide +kernel
  have hdescriptor : (descriptorsIn Bucket.ofDescriptor (.symbol "*") descriptors)[1]? =
      some ⟨"term[1]", "*", 2, 2⟩ := by
    decide +kernel
  have hleaf : (leavesIn Bucket.ofNode (.symbol "*") leaves)[1]? =
      some (ReadingOrder.glyph 6 .binaryOp "×" ⟨50, 0, 60, 10⟩) := by
    decide +kernel
  have hlength : (descriptorsIn Bucket.ofDescriptor (.symbol "*") descriptors).length = 2 := by
    decide +kernel
  have hrank : ((descriptorsIn Bucket.ofDescriptor (.symbol "*") descriptors).take 1).countP
      (fun e => e.path == "term[1]") = 0 := by
    decide +kernel
  have hwritten := (operators_pairsByPosition.2 map leaves descriptors hadmitted).1.paired
    (.symbol "*") 1 _ _ hdescriptor hleaf fun k hk hlt => by omega
  rw [hrank] at hwritten
  exact ⟨hadmitted, hdescriptor, hleaf, hwritten⟩

end TwoProducts

namespace NamedLikeSigns

def sign : Node Rat := ReadingOrder.glyph 2 .minusUnary "-" ⟨10, 0, 20, 10⟩

/-- An operator that is spelled like the name of the signs, and a sign. -/
def leaves : List (Node Rat) := [ReadingOrder.glyph 1 .binaryOp "-u" ⟨0, 0, 10, 10⟩, sign]

def map : SurfaceMap Rat where
  root := .node (ReadingOrder.glyph 0 .root "" ⟨0, 0, 20, 10⟩) (leaves.map fun n => .node n [])
  origin := ⟨0, 0, 20, 10⟩
  container := []

def descriptors : List OperatorDescriptor := [⟨"root", "-", 0, 1⟩]

end NamedLikeSigns

open NamedLikeSigns in
/-- A symbol that bears the name of the signs receives what is meant for the first sign. -/
theorem not_pairsByPosition_named_like_signs :
    ¬ PairsByPosition (α := Rat) Bucket.ofDescriptor Bucket.ofNode
      fun m leaves _ => Apart m leaves := by
  intro h
  have hapart : Apart map leaves := by
    constructor <;> decide +kernel
  have hlength : (descriptorsIn Bucket.ofDescriptor .sign descriptors).length = 1 := by
    decide +kernel
  have hwritten : (operators leaves descriptors map).1.nodeAt? sign.number = some _ :=
    (h map leaves descriptors hapart).1.paired .sign 0 ⟨"root", "-", 0, 1⟩ sign
      (by decide +kernel) (by decide +kernel) fun k hk hlt => by omega
  have hbare : (operators leaves descriptors map).1.nodeAt? sign.number = some sign := by
    decide +kernel
  rw [hbare] at hwritten
  exact absurd hwritten (by decide +kernel)

end Join
end FormulaMap

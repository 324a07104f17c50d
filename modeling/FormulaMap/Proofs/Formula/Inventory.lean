/-
The descriptor lists as an inventory of the nodes.

The three lists divide the nodes of an expression among them: each is, in reading order,
what one sort of node looks like, its positions count up from zero, and a fraction is in
none of them (`Inventoried`).  That is so for every expression whose nodes have paths of
their own and whose texts are not empty (`inventoried`), so for every expression that has
been given paths.

What is the same for the three lists is said once, of any list that is made of the nodes
by keeping those of a sort (`Lists`).
-/
import FormulaMap.Proofs.Formula.Descriptors
import Mathlib.Data.List.Count
import Mathlib.Data.List.Forall2

namespace FormulaMap
namespace Expr

/-! ## The sorts of nodes -/

def isNumeral : Expr → Bool
  | numeral _ _ => true
  | _ => false

/-- An operation or a sign. -/
def isOperator : Expr → Bool
  | binary _ _ _ _ => true
  | negation _ _ => true
  | _ => false

def isFraction : Expr → Bool
  | fraction _ _ _ => true
  | _ => false

def isMixed : Expr → Bool
  | mixed _ _ _ _ => true
  | _ => false

theorem isOperator_eq (e : Expr) : e.isOperator = e.operator?.isSome := by
  cases e <;> rfl

/-- Every node but a fraction is of one of the other sorts. -/
theorem filter_perm (ns : List Expr) :
    (ns.filter isNumeral ++ ns.filter isOperator ++ ns.filter isMixed).Perm
      (ns.filter fun n => !n.isFraction) := by
  induction ns with
  | nil => exact .nil
  | cons n ns ih =>
    rw [List.append_assoc] at ih ⊢
    cases n with
    | numeral t p => exact ih.cons _
    | binary o l r p => exact List.perm_middle.trans (ih.cons _)
    | negation a p => exact List.perm_middle.trans (ih.cons _)
    | fraction n d p => exact ih
    | mixed w n d p =>
      rw [← List.append_assoc] at ih ⊢
      exact List.perm_middle.trans (ih.cons _)

/-! ## What a descriptor says -/

end Expr

/-- The descriptor has the path and the text of the numeral. -/
def NumeralDescriptor.Describes (d : NumeralDescriptor) (n : Expr) : Prop :=
  n = .numeral d.text (some d.path)

/-- The descriptor has the path, the symbol and the number of operands of the operator. -/
def OperatorDescriptor.Describes (d : OperatorDescriptor) (n : Expr) : Prop :=
  n.path = some d.path ∧ n.operator? = some (d.symbol, d.arity)

/-- The descriptor has the path and the three parts of the mixed number. -/
def MixedDescriptor.Describes (d : MixedDescriptor) (n : Expr) : Prop :=
  n = .mixed d.whole d.numerator d.denominator (some d.path)

namespace Expr

/-! ## Lists of descriptors -/

/-- The descriptors are those of the nodes of a sort, in reading order. -/
structure Lists (e : Expr) {δ : Type} (ds : List δ) (path : δ → String) (position : δ → Nat)
    (sort : Expr → Bool) (Describes : δ → Expr → Prop) : Prop where
  inOrder : List.Forall₂ Describes ds (e.nodes.filter sort)
  numbered : ds.map position = List.range ds.length
  /-- The path of a descriptor leads to the node that it describes. -/
  found : ∀ d ∈ ds, ∃ n, e.nodeAt? (path d) = some n ∧ sort n = true ∧ Describes d n

/-- What is made of what is kept describes the nodes of which something is kept. -/
theorem forall₂_kept {β δ : Type} {f : Expr → Option β} {make : β × Nat → δ}
    {sort : Expr → Bool} {Describes : δ → Expr → Prop} {ns : List Expr}
    (hsort : ∀ n ∈ ns, (f n).isSome = sort n)
    (hmake : ∀ n b i, f n = some b → Describes (make (b, i)) n) :
    List.Forall₂ Describes ((ns.filterMap f).zipIdx.map make) (ns.filter sort) := by
  have hkept : List.Forall₂ (fun b n => f n = some b) (ns.filterMap f) (ns.filter sort) :=
    forall₂_filterMap hsort fun _ _ _ hf => hf
  rw [← List.zipIdx_map_fst 0 (ns.filterMap f), List.forall₂_map_left_iff] at hkept
  rw [List.forall₂_map_left_iff]
  exact hkept.imp fun b n hf => hmake n b.1 b.2 hf

section
variable {e : Expr} {β δ : Type} {path : δ → String} {position : δ → Nat} {sort : Expr → Bool}
  {Describes : δ → Expr → Prop}

theorem Addressed.lists {f : Expr → Option β} {make : β × Nat → δ} (h : e.Addressed)
    (hsort : ∀ n ∈ e.nodes, (f n).isSome = sort n)
    (hmake : ∀ n b i, f n = some b → Describes (make (b, i)) n)
    (hposition : ∀ b i, position (make (b, i)) = i)
    (hpath : ∀ d n, Describes d n → n.path = some (path d)) :
    Lists e ((e.nodes.filterMap f).zipIdx.map make) path position sort Describes := by
  have hall := forall₂_kept hsort hmake
  refine ⟨hall, ?_, ?_⟩
  · rw [List.map_map, List.length_map, List.length_zipIdx, List.range_eq_range',
      ← List.zipIdx_map_snd]
    exact List.map_congr_left fun b _ => hposition b.1 b.2
  · intro d hd
    obtain ⟨i, hi, rfl⟩ := List.getElem_of_mem hd
    have hdescribes := hall.get hi (hall.length_eq ▸ hi)
    have hn := List.mem_filter.1 (List.getElem_mem (hall.length_eq ▸ hi))
    exact ⟨_, h.nodeAt?_eq hn.1 (hpath _ _ hdescribes), hn.2, hdescribes⟩

theorem Lists.map_path {ds : List δ} (h : Lists e ds path position sort Describes)
    (hpath : ∀ d n, Describes d n → n.path = some (path d)) :
    (ds.map path).map some = (e.nodes.filter sort).map Expr.path := by
  rw [← List.forall₂_eq_eq_eq, List.map_map, List.forall₂_map_left_iff, List.forall₂_map_right_iff]
  exact h.inOrder.imp fun d n hd => (hpath d n hd).symm

end

/-! ## The three lists -/

theorem textsPresent_of_mem_nodes {e n : Expr} (h : e.textsPresent = true) (hn : n ∈ e.nodes) :
    n.textsPresent = true := by
  induction e with
  | numeral t p => rwa [List.mem_singleton.1 hn]
  | binary o l r p ihl ihr =>
    have hparts := h
    rw [textsPresent, Bool.and_eq_true] at hparts
    rw [nodes, List.mem_append, List.mem_cons] at hn
    rcases hn with hn | rfl | hn
    · exact ihl hparts.1 hn
    · exact h
    · exact ihr hparts.2 hn
  | negation a p ih =>
    rw [nodes, List.mem_cons] at hn
    rcases hn with rfl | hn
    · exact h
    · exact ih h hn
  | fraction n d p ihn ihd =>
    have hparts := h
    rw [textsPresent, Bool.and_eq_true] at hparts
    rw [nodes, List.mem_cons, List.mem_append] at hn
    rcases hn with rfl | hn | hn
    · exact h
    · exact ihn hparts.1 hn
    · exact ihd hparts.2 hn
  | mixed w n d p => rwa [List.mem_singleton.1 hn]

theorem textsPresent_assignFrom (e : Expr) (p : String) :
    (e.assignFrom p).textsPresent = e.textsPresent := by
  induction e generalizing p with
  | numeral t q => rfl
  | binary o l r q ihl ihr => rw [assignFrom, textsPresent, textsPresent, ihl, ihr]
  | negation a q ih => rw [assignFrom, textsPresent, textsPresent, ih]
  | fraction n d q ihn ihd => rw [assignFrom, textsPresent, textsPresent, ihn, ihd]
  | mixed w n d q => rfl

/-- The path of a node that has one of its own can be listed. -/
theorem Addressed.address?_path {e n : Expr} (h : e.Addressed) (hn : n ∈ e.nodes) :
    ∃ p, n.path = some p ∧ address? n.path = some p := by
  obtain ⟨p, hp, hvalid⟩ := h.located n hn
  have hne : p ≠ "" := by
    rintro rfl
    exact absurd hvalid (by decide)
  rw [hp]
  exact ⟨p, rfl, address?_some hne⟩

section
variable {e : Expr}

theorem Addressed.lists_numerals (h : e.Addressed) (htexts : e.textsPresent = true) :
    Lists e e.numerals (·.path) (·.position) isNumeral NumeralDescriptor.Describes := by
  rw [numerals, numeralEntries_eq]
  refine h.lists ?_ ?_ (fun _ _ => rfl) ?_
  · intro n hn
    obtain ⟨p, hp, haddress⟩ := h.address?_path hn
    have hpresent := textsPresent_of_mem_nodes htexts hn
    cases n with
    | numeral t q =>
      rw [textsPresent, Bool.not_eq_true'] at hpresent
      rw [ numeralEntry?, hpresent, if_neg Bool.false_ne_true]
      rw [Expr.path] at haddress
      rw [haddress]
      rfl
    | binary o l r q => rfl
    | negation a q => rfl
    | fraction n d q => rfl
    | mixed w n d q => rfl
  · rintro n ⟨a, t⟩ i hf
    exact numeralEntry?_eq_some hf
  · rintro d n rfl
    rfl

theorem Addressed.lists_operators (h : e.Addressed) :
    Lists e e.operators (·.path) (·.position) isOperator OperatorDescriptor.Describes := by
  rw [operators, operatorEntries_eq]
  refine h.lists ?_ ?_ (fun _ _ => rfl) (fun _ _ hd => hd.1)
  · intro n hn
    obtain ⟨p, hp, haddress⟩ := h.address?_path hn
    rw [ operatorEntry?, haddress, Option.bind_some, Option.isSome_map, isOperator_eq]
  · rintro n ⟨a, s, k⟩ i hf
    exact operatorEntry?_eq_some hf

theorem Addressed.lists_mixedNumbers (h : e.Addressed) :
    Lists e e.mixedNumbers (·.path) (·.position) isMixed MixedDescriptor.Describes := by
  refine h.lists ?_ ?_ (fun _ _ => rfl) ?_
  · intro n hn
    obtain ⟨p, hp, haddress⟩ := h.address?_path hn
    cases n with
    | mixed w n d q =>
      rw [Expr.path] at haddress
      rw [ mixedEntry?, haddress]
      rfl
    | numeral t q => rfl
    | binary o l r q => rfl
    | negation a q => rfl
    | fraction n d q => rfl
  · rintro n ⟨a, w, k, m⟩ i hf
    exact mixedEntry?_eq_some hf
  · rintro d n rfl
    rfl

/-- The paths of all descriptors, list after list. -/
def listedPaths (e : Expr) : List String :=
  e.numerals.map (·.path) ++ e.operators.map (·.path) ++ e.mixedNumbers.map (·.path)

/-- The three lists divide the nodes among them. -/
structure Inventoried (e : Expr) : Prop where
  numerals : Lists e e.numerals (·.path) (·.position) isNumeral NumeralDescriptor.Describes
  operators : Lists e e.operators (·.path) (·.position) isOperator OperatorDescriptor.Describes
  mixedNumbers : Lists e e.mixedNumbers (·.path) (·.position) isMixed MixedDescriptor.Describes
  /-- No path is listed twice, in one list or in two. -/
  distinct : e.listedPaths.Nodup
  /-- A node is listed once, a fraction is not listed. -/
  once : ∀ n ∈ e.nodes, ∀ p, n.path = some p →
    e.listedPaths.count p = if n.isFraction then 0 else 1

theorem Addressed.listedPaths_perm (h : e.Addressed) (htexts : e.textsPresent = true) :
    (e.listedPaths.map some).Perm ((e.nodes.filter fun n => !n.isFraction).map path) := by
  have hnumerals := (h.lists_numerals htexts).map_path fun d n hd => by rw [hd]; rfl
  have hoperators := h.lists_operators.map_path fun _ _ hd => hd.1
  have hmixed := h.lists_mixedNumbers.map_path fun d n hd => by rw [hd]; rfl
  rw [listedPaths, List.map_append, List.map_append, hnumerals, hoperators, hmixed,
    ← List.map_append, ← List.map_append]
  exact (filter_perm e.nodes).map path

theorem Addressed.inventoried (h : e.Addressed) (htexts : e.textsPresent = true) :
    e.Inventoried := by
  have hperm := h.listedPaths_perm htexts
  have hdistinct : ((e.nodes.filter fun n => !n.isFraction).map path).Nodup :=
    h.distinct.sublist (List.filter_sublist.map path)
  refine ⟨h.lists_numerals htexts, h.lists_operators, h.lists_mixedNumbers,
    (hperm.nodup_iff.2 hdistinct).of_map, ?_⟩
  intro n hn p hp
  have hlisted : some p ∈ (e.nodes.filter fun n => !n.isFraction).map path ↔
      n.isFraction = false := by
    rw [← hp, List.mem_map]
    constructor
    · rintro ⟨m, hm, hpath⟩
      rw [List.mem_filter, Bool.not_eq_true'] at hm
      rw [← List.inj_on_of_nodup_map h.distinct hm.1 hn hpath]
      exact hm.2
    · intro hfraction
      exact ⟨n, List.mem_filter.2 ⟨hn, by rw [hfraction]; rfl⟩, rfl⟩
  rw [← List.count_map_of_injective _ some (fun _ _ => Option.some.inj), hperm.count_eq,
    hdistinct.count]
  cases hfraction : n.isFraction with
  | true => rw [if_neg (by rw [hlisted, hfraction]; exact Bool.noConfusion), if_pos rfl]
  | false => rw [if_pos (hlisted.2 hfraction), if_neg Bool.false_ne_true]

/-- The descriptor lists of an expression that has been given paths divide its nodes among
them. -/
theorem inventoried_assignPaths (htexts : e.textsPresent = true) : e.assignPaths.Inventoried :=
  e.addressed_assignPaths.inventoried ((textsPresent_assignFrom e Path.root).trans htexts)

end

/-- A negated sum of a mixed number and a fraction: the fraction is not listed, the parts of
the fraction are. -/
theorem inventoried_negatedSum :
    let e : Expr := .negation (.binary .add (.mixed "1" "2" "3" none)
      (.fraction (.numeral "4" none) (.negation (.numeral "-5" none) none) none) none) none
    e.textsPresent = true ∧ e.assignPaths.Inventoried ∧
      e.assignPaths.listedPaths =
        ["root.arg.term[1].num", "root.arg.term[1].den.arg",
          "root", "root.arg", "root.arg.term[1].den", "root.arg.term[0]"] :=
  ⟨by decide, inventoried_assignPaths (by decide), by decide +kernel⟩

end Expr
end FormulaMap

/-
The descriptor lists of an expression.

The numerals and the operators are collected by a walk of their own; it visits the
nodes in reading order, so each list is what one test keeps of the nodes
(`numeralEntries_eq`, `operatorEntries_eq`).  When every node has its own path, each
descriptor is found at its path and no path occurs twice in a list.
-/
import FormulaMap.Formula.Descriptor
import FormulaMap.Proofs.Formula.Addresses

namespace FormulaMap
namespace Expr

/-! ## Each list is a part of the nodes -/

/-- What is kept of each node stands beside the nodes of which something is kept. -/
theorem forall₂_filterMap {β : Type} {f : Expr → Option β} {sort : Expr → Bool}
    {R : β → Expr → Prop} {ns : List Expr} (hsort : ∀ n ∈ ns, (f n).isSome = sort n)
    (hR : ∀ n ∈ ns, ∀ b, f n = some b → R b n) :
    List.Forall₂ R (ns.filterMap f) (ns.filter sort) := by
  induction ns with
  | nil => exact .nil
  | cons n ns ih =>
    have hn := hsort n List.mem_cons_self
    have hns := ih (fun m hm => hsort m (List.mem_cons_of_mem n hm))
      fun m hm => hR m (List.mem_cons_of_mem n hm)
    cases hf : f n with
    | none =>
      rw [hf] at hn
      rw [List.filterMap_cons_none hf, List.filter_cons_of_neg (hn ▸ Bool.false_ne_true)]
      exact hns
    | some b =>
      rw [hf] at hn
      rw [List.filterMap_cons_some hf, List.filter_cons_of_pos hn.symm]
      exact .cons (hR n List.mem_cons_self b hf) hns

def numeralEntry? : Expr → Option (String × String)
  | numeral t p => if t.isEmpty then none else (address? p).map fun a => (a, t)
  | _ => none

/-- The symbol of an operator and the number of its operands. -/
def operator? : Expr → Option (String × Nat)
  | binary o _ _ _ => some (o.symbol, 2)
  | negation _ _ => some ("-", 1)
  | _ => none

def operatorEntry? (e : Expr) : Option (String × String × Nat) :=
  (address? e.path).bind fun a => e.operator?.map fun o => (a, o)

theorem numeralEntries_eq (e : Expr) : e.numeralEntries = e.nodes.filterMap numeralEntry? := by
  induction e with
  | numeral t p =>
    rw [numeralEntries, nodes, List.filterMap_cons, numeralEntry?]
    split
    · rfl
    · cases address? p <;> rfl
  | binary o l r p ihl ihr =>
    rw [numeralEntries, nodes, List.filterMap_append, List.filterMap_cons, ihl, ihr]
    rfl
  | negation a p ih => exact ih
  | fraction n d p ihn ihd =>
    rw [numeralEntries, nodes, List.filterMap_cons, List.filterMap_append, ihn, ihd]
    rfl
  | mixed w n d p => rfl

theorem operatorEntries_eq (e : Expr) : e.operatorEntries = e.nodes.filterMap operatorEntry? := by
  induction e with
  | numeral t p =>
    rw [operatorEntries, nodes, List.filterMap_cons, operatorEntry?]
    cases address? (numeral t p).path <;> rfl
  | binary o l r p ihl ihr =>
    rw [operatorEntries, nodes, List.filterMap_append, List.filterMap_cons, operatorEntry?, ihl,
      ihr, path]
    cases address? p <;> simp [operator?]
  | negation a p ih =>
    rw [operatorEntries, nodes, List.filterMap_cons, operatorEntry?, ih, path]
    cases address? p <;> simp [operator?]
  | fraction n d p ihn ihd =>
    rw [operatorEntries, nodes, List.filterMap_cons, List.filterMap_append, operatorEntry?, ihn,
      ihd]
    cases address? (fraction n d p).path <;> rfl
  | mixed w n d p =>
    rw [operatorEntries, nodes, List.filterMap_cons, operatorEntry?]
    cases address? (mixed w n d p).path <;> rfl

/-! ## Descriptors name nodes -/

theorem address?_some {p : String} (hp : p ≠ "") : address? (some p) = some p := by
  rw [address?, Option.filter_some, if_pos (by simpa using hp)]

theorem address?_eq_some {p : Option String} {a : String} (h : address? p = some a) :
    p = some a :=
  (Option.filter_eq_some_iff.1 h).1

theorem ne_empty_of_address? {p : Option String} {a : String} (h : address? p = some a) : a ≠ "" := by
  have hfull := (Option.filter_eq_some_iff.1 h).2
  rintro rfl
  exact absurd hfull (by decide)

theorem numeralEntry?_eq_some {e : Expr} {a t : String} (h : e.numeralEntry? = some (a, t)) :
    e = numeral t (some a) := by
  unfold numeralEntry? at h
  split at h
  · next t' p =>
    split at h
    · cases h
    · obtain ⟨a', ha, heq⟩ := Option.map_eq_some_iff.1 h
      cases heq
      rw [address?_eq_some ha]
  · cases h

theorem operatorEntry?_eq_some {e : Expr} {a s : String} {n : Nat}
    (h : e.operatorEntry? = some (a, s, n)) : e.path = some a ∧ e.operator? = some (s, n) := by
  obtain ⟨a', ha, h⟩ := Option.bind_eq_some_iff.1 h
  obtain ⟨o, ho, heq⟩ := Option.map_eq_some_iff.1 h
  cases heq
  exact ⟨address?_eq_some ha, ho⟩

theorem mixedEntry?_eq_some {e : Expr} {a w n d : String}
    (h : e.mixedEntry? = some (a, w, n, d)) : e = mixed w n d (some a) := by
  unfold mixedEntry? at h
  split at h
  · obtain ⟨a', ha, heq⟩ := Option.map_eq_some_iff.1 h
    cases heq
    rw [address?_eq_some ha]
  · cases h

section
variable {e : Expr}

theorem mem_of_mem_numerals {d : NumeralDescriptor} (h : d ∈ e.numerals) :
    numeral d.text (some d.path) ∈ e.nodes := by
  obtain ⟨⟨⟨p, t⟩, i⟩, hmem, rfl⟩ := List.mem_map.1 h
  have hentry : (p, t) ∈ e.numeralEntries := List.fst_mem_of_mem_zipIdx hmem
  rw [numeralEntries_eq] at hentry
  obtain ⟨x, hx, hf⟩ := List.mem_filterMap.1 hentry
  rw [← numeralEntry?_eq_some hf]
  exact hx

theorem mem_of_mem_operators {d : OperatorDescriptor} (h : d ∈ e.operators) :
    ∃ x ∈ e.nodes, x.path = some d.path ∧ x.operator? = some (d.symbol, d.arity) := by
  obtain ⟨⟨⟨p, s, n⟩, i⟩, hmem, rfl⟩ := List.mem_map.1 h
  have hentry : (p, s, n) ∈ e.operatorEntries := List.fst_mem_of_mem_zipIdx hmem
  rw [operatorEntries_eq] at hentry
  obtain ⟨x, hx, hf⟩ := List.mem_filterMap.1 hentry
  exact ⟨x, hx, operatorEntry?_eq_some hf⟩

theorem mem_of_mem_mixedNumbers {d : MixedDescriptor} (h : d ∈ e.mixedNumbers) :
    mixed d.whole d.numerator d.denominator (some d.path) ∈ e.nodes := by
  obtain ⟨⟨⟨p, w, n, m⟩, i⟩, hmem, rfl⟩ := List.mem_map.1 h
  have hentry : (p, w, n, m) ∈ e.nodes.filterMap mixedEntry? := List.fst_mem_of_mem_zipIdx hmem
  obtain ⟨x, hx, hf⟩ := List.mem_filterMap.1 hentry
  rw [← mixedEntry?_eq_some hf]
  exact hx

/-! ## No path is empty -/

theorem path_ne_empty_of_mem_numerals {d : NumeralDescriptor} (h : d ∈ e.numerals) :
    d.path ≠ "" := by
  obtain ⟨⟨⟨p, t⟩, i⟩, hmem, rfl⟩ := List.mem_map.1 h
  have hentry : (p, t) ∈ e.numeralEntries := List.fst_mem_of_mem_zipIdx hmem
  rw [numeralEntries_eq] at hentry
  obtain ⟨x, -, hf⟩ := List.mem_filterMap.1 hentry
  unfold numeralEntry? at hf
  split at hf
  · split at hf
    · cases hf
    · obtain ⟨a, ha, heq⟩ := Option.map_eq_some_iff.1 hf
      cases heq
      exact ne_empty_of_address? ha
  · cases hf

theorem path_ne_empty_of_mem_operators {d : OperatorDescriptor} (h : d ∈ e.operators) :
    d.path ≠ "" := by
  obtain ⟨⟨⟨p, s, n⟩, i⟩, hmem, rfl⟩ := List.mem_map.1 h
  have hentry : (p, s, n) ∈ e.operatorEntries := List.fst_mem_of_mem_zipIdx hmem
  rw [operatorEntries_eq] at hentry
  obtain ⟨x, -, hf⟩ := List.mem_filterMap.1 hentry
  obtain ⟨a, ha, hx⟩ := Option.bind_eq_some_iff.1 hf
  obtain ⟨o, -, heq⟩ := Option.map_eq_some_iff.1 hx
  cases heq
  exact ne_empty_of_address? ha

theorem path_ne_empty_of_mem_mixedNumbers {d : MixedDescriptor} (h : d ∈ e.mixedNumbers) :
    d.path ≠ "" := by
  obtain ⟨⟨⟨p, w, n, m⟩, i⟩, hmem, rfl⟩ := List.mem_map.1 h
  have hentry : (p, w, n, m) ∈ e.nodes.filterMap mixedEntry? := List.fst_mem_of_mem_zipIdx hmem
  obtain ⟨x, -, hf⟩ := List.mem_filterMap.1 hentry
  unfold mixedEntry? at hf
  split at hf
  · obtain ⟨a, ha, heq⟩ := Option.map_eq_some_iff.1 hf
    cases heq
    exact ne_empty_of_address? ha
  · cases hf

/-! ## Descriptors without their positions -/

theorem map_path_numerals (e : Expr) :
    e.numerals.map (·.path) = e.numeralEntries.map Prod.fst := by
  rw [numerals, List.map_map, ← List.zipIdx_map_fst 0 e.numeralEntries, List.map_map]
  simp

theorem map_entry_operators (e : Expr) :
    e.operators.map (fun d => (d.path, d.symbol, d.arity)) = e.operatorEntries := by
  rw [operators, List.map_map]
  exact List.zipIdx_map_fst 0 e.operatorEntries

/-! ## No path twice -/

/-- What is collected with the path of each node has every path once. -/
theorem Addressed.nodup_filterMap (h : e.Addressed) {β : Type} {f : Expr → Option (String × β)}
    (hf : ∀ x a b, f x = some (a, b) → x.path = some a) :
    ((e.nodes.filterMap f).map Prod.fst).Nodup := by
  have hdistinct := h.distinct
  rw [List.Nodup, List.pairwise_map] at hdistinct ⊢
  rw [List.pairwise_filterMap]
  refine hdistinct.imp ?_
  rintro x y hne ⟨a, b⟩ hx ⟨a', b'⟩ hy rfl
  exact hne ((hf x a b hx).trans (hf y a b' hy).symm)

theorem Addressed.nodup_numerals (h : e.Addressed) : (e.numerals.map (·.path)).Nodup := by
  rw [map_path_numerals, numeralEntries_eq]
  refine h.nodup_filterMap ?_
  intro x a b hx
  rw [numeralEntry?_eq_some hx]
  rfl

theorem Addressed.nodup_operators (h : e.Addressed) : (e.operators.map (·.path)).Nodup := by
  have hpaths : e.operators.map (·.path) = e.operatorEntries.map Prod.fst := by
    rw [← map_entry_operators, List.map_map]
    rfl
  rw [hpaths, operatorEntries_eq]
  refine h.nodup_filterMap ?_
  rintro x a ⟨s, n⟩ hx
  exact (operatorEntry?_eq_some hx).1

theorem Addressed.nodup_mixedNumbers (h : e.Addressed) : (e.mixedNumbers.map (·.path)).Nodup := by
  have hpaths : e.mixedNumbers.map (·.path) = (e.nodes.filterMap mixedEntry?).map Prod.fst := by
    rw [mixedNumbers, List.map_map, ← List.zipIdx_map_fst 0 (e.nodes.filterMap mixedEntry?),
      List.map_map]
    simp
  rw [hpaths]
  refine h.nodup_filterMap ?_
  rintro x a ⟨w, n, d⟩ hx
  rw [mixedEntry?_eq_some hx]
  rfl

end

end Expr
end FormulaMap

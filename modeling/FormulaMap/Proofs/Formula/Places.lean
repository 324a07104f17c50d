/-
The places of an expression.

`at?` follows steps down from the root, and reading order lists the nodes of all places
(`nodes_eq`).  Assigning paths gives the node at every place the path of the steps that
lead there, whatever paths there were, so an expression whose paths have been assigned is
its own index: a path finds the node that carries it, no other node carries it, and any
other text finds nothing (`indexed_assignPaths`).
-/
import FormulaMap.Proofs.Formula.Addresses
import FormulaMap.Proofs.Formula.Spelling

namespace FormulaMap
namespace Expr

/-! ## Places -/

/-- The operand that a step leads to. -/
def child? : Expr → PathStep → Option Expr
  | binary _ l _ _, .left => some l
  | binary _ _ r _, .right => some r
  | negation a _, .argument => some a
  | fraction n _ _, .numerator => some n
  | fraction _ d _, .denominator => some d
  | _, _ => none

/-- The node that the steps lead to, if they stay inside the expression. -/
def at? (e : Expr) : List PathStep → Option Expr
  | [] => some e
  | s :: more => (e.child? s).bind fun c => c.at? more

theorem map_at?_cons {e c : Expr} {s : PathStep} (h : ∀ more, e.at? (s :: more) = c.at? more) :
    (c.addresses.map (s :: ·)).map e.at? = c.addresses.map c.at? := by
  rw [List.map_map]
  exact List.map_congr_left fun more _ => h more

/-- The nodes in reading order are the nodes at the addresses in reading order. -/
theorem nodes_eq (e : Expr) : e.nodes.map some = e.addresses.map e.at? := by
  induction e with
  | numeral t p => rfl
  | binary o l r p ihl ihr =>
    rw [nodes, addresses, List.map_append, List.map_append, List.map_cons, List.map_cons, ihl, ihr,
      map_at?_cons fun _ => rfl, map_at?_cons fun _ => rfl]
    rfl
  | negation a p ih =>
    rw [nodes, addresses, List.map_cons, List.map_cons, ih, map_at?_cons fun _ => rfl]
    rfl
  | fraction n d p ihn ihd =>
    rw [nodes, addresses, List.map_cons, List.map_cons, List.map_append, List.map_append, ihn, ihd,
      map_at?_cons fun _ => rfl, map_at?_cons fun _ => rfl]
    rfl
  | mixed w n d p => rfl

theorem mem_addresses_cons {e c : Expr} {s : PathStep} {more : List PathStep}
    (h : e.child? s = some c) (hmore : more ∈ c.addresses) : s :: more ∈ e.addresses := by
  unfold child? at h
  split at h
  all_goals cases h
  all_goals simpa [addresses] using hmore

theorem mem_addresses_of_at? {e n : Expr} {steps : List PathStep} (h : e.at? steps = some n) :
    steps ∈ e.addresses := by
  induction steps generalizing e with
  | nil => cases e <;> simp [addresses]
  | cons s more ih =>
    obtain ⟨c, hc, hmore⟩ := Option.bind_eq_some_iff.1 h
    exact mem_addresses_cons hc (ih hmore)

theorem mem_nodes_of_at? {e n : Expr} {steps : List PathStep} (h : e.at? steps = some n) :
    n ∈ e.nodes := by
  have hmem : some n ∈ e.addresses.map e.at? :=
    List.mem_map.2 ⟨steps, mem_addresses_of_at? h, h⟩
  rw [← nodes_eq] at hmem
  obtain ⟨n', hn', heq⟩ := List.mem_map.1 hmem
  rwa [← Option.some.inj heq]

/-! ## Assigned paths -/

theorem child?_assignFrom (e : Expr) (p : String) (s : PathStep) :
    (e.assignFrom p).child? s = (e.child? s).map (assignFrom (Path.child p s)) := by
  cases e <;> cases s <;> rfl

theorem path_assignFrom (e : Expr) (p : String) : (e.assignFrom p).path = some p := by
  cases e <;> rfl

/-- The node at a place is given the path of the steps that lead there. -/
theorem path_of_at?_assignFrom {e n : Expr} {start steps : List PathStep}
    (h : (e.assignFrom (Path.ofSteps start)).at? steps = some n) :
    n.path = some (Path.ofSteps (start ++ steps)) := by
  induction steps generalizing e start with
  | nil =>
    rw [at?, Option.some.injEq] at h
    rw [← h, path_assignFrom, List.append_nil]
  | cons s more ih =>
    obtain ⟨c, hc, hmore⟩ := Option.bind_eq_some_iff.1 h
    rw [child?_assignFrom, ← Path.ofSteps_append] at hc
    obtain ⟨c', -, rfl⟩ := Option.map_eq_some_iff.1 hc
    rw [ih hmore, List.append_assoc, List.singleton_append]

theorem path_of_at? {e n : Expr} {steps : List PathStep} (h : e.assignPaths.at? steps = some n) :
    n.path = some (Path.ofSteps steps) := by
  have hstart := @path_of_at?_assignFrom e n [] steps h
  rwa [List.nil_append] at hstart

/-- Paths that were there before do not matter. -/
theorem assignFrom_assignFrom (e : Expr) (p q : String) :
    (e.assignFrom p).assignFrom q = e.assignFrom q := by
  induction e generalizing p q with
  | numeral t r => rfl
  | binary o l r s ihl ihr => rw [assignFrom, assignFrom, assignFrom, ihl, ihr]
  | negation a r ih => rw [assignFrom, assignFrom, assignFrom, ih]
  | fraction n d r ihn ihd => rw [assignFrom, assignFrom, assignFrom, ihn, ihd]
  | mixed w n d r => rfl

/-! ## Expressions that are their own index -/

/-- Paths and nodes determine each other. -/
structure Indexed (e : Expr) : Prop extends Addressed e where
  /-- The path of a node finds that node, and the node at no other place carries it. -/
  found : ∀ steps n, e.at? steps = some n → ∃ p, n.path = some p ∧ e.nodeAt? p = some n ∧
    ∀ steps' n', e.at? steps' = some n' → n'.path = some p → steps' = steps
  absent : ∀ p, (∀ n ∈ e.nodes, n.path ≠ some p) → e.nodeAt? p = none
  stable : e.assignPaths = e

/-- Assigning paths makes an expression its own index, and changes nothing else. -/
theorem indexed_assignPaths (e : Expr) :
    e.assignPaths.Indexed ∧ e.assignPaths.bare = e.bare := by
  have haddressed := e.addressed_assignPaths
  refine ⟨⟨haddressed, ?_, ?_, ?_⟩, bare_assignFrom e Path.root⟩
  · intro steps n hn
    have hpath := path_of_at? hn
    refine ⟨Path.ofSteps steps, hpath, haddressed.nodeAt?_eq (mem_nodes_of_at? hn) hpath, ?_⟩
    intro steps' n' hn' hpath'
    rw [path_of_at? hn'] at hpath'
    exact Path.ofSteps_injective (Option.some.inj hpath')
  · intro p hp
    rw [nodeAt?, List.find?_eq_none]
    intro n hn
    rw [beq_iff_eq]
    exact hp n hn
  · exact assignFrom_assignFrom e Path.root Path.root

end Expr
end FormulaMap

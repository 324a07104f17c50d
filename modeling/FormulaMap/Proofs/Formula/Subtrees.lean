/-
Subtrees by their paths.

Below the root the path of a node is continued, after a point, by the paths of the nodes
below it and by no other path of the expression (`Path.covers_ofSteps`).  At the root this
fails, since the operands of an operation at the root are written without it.  But no path
one step down is that of the root, so the nodes below a child are told from all others by
the path of the child alone (`Expr.covers_child_iff`).
-/
import FormulaMap.Proofs.Formula.Places
import FormulaMap.Surface.Operands

namespace FormulaMap

namespace Path

theorem covers_iff {p q : String} :
    covers p q = true ↔ q = p ∨ ∃ rest, q.toList = p.toList ++ '.' :: rest := by
  rw [covers, Bool.or_eq_true, beq_iff_eq, List.isPrefixOf_iff_prefix, String.toList_append]
  refine or_congr_right ⟨?_, ?_⟩
  · rintro ⟨rest, hrest⟩
    exact ⟨rest, by rw [← hrest, List.append_assoc]; rfl⟩
  · rintro ⟨rest, hrest⟩
    exact ⟨rest, by rw [hrest, List.append_assoc]; rfl⟩

/-! ## Any texts -/

theorem prefix_of_covers {p q : String} (h : covers p q = true) : p.toList <+: q.toList := by
  rcases covers_iff.1 h with rfl | ⟨rest, hrest⟩
  · exact List.prefix_refl _
  · exact ⟨_, hrest.symm⟩

/-- No path is below one of its children. -/
theorem covers_child_self (p : String) (s : PathStep) : covers (child p s) p = false := by
  refine Bool.eq_false_iff.2 fun h => ?_
  by_cases hp : p = root
  · rw [hp] at h
    cases s <;> exact absurd h (by decide)
  · have hlength := (prefix_of_covers h).length_le
    rw [toList_child hp, List.length_append, List.length_cons] at hlength
    omega

/-- The two operands of an operation have no path below them in common. -/
theorem covers_right_of_left {p q : String} (h : covers (child p .left) q = true) :
    covers (child p .right) q = false := by
  refine Bool.eq_false_iff.2 fun h' => ?_
  have hstem : ∃ stem, ∀ s : PathStep, s.isTerm = true →
      (child p s).toList = stem ++ s.segment.toList := by
    by_cases hp : p = root
    · refine ⟨[], fun s hs => ?_⟩
      rw [child, hs, hp, beq_self_eq_true]
      rfl
    · exact ⟨p.toList ++ ['.'], fun s _ => by rw [toList_child hp, List.append_assoc]; rfl⟩
  obtain ⟨stem, hstem⟩ := hstem
  have hleft := prefix_of_covers h
  have hright := prefix_of_covers h'
  rw [hstem _ rfl] at hleft hright
  have hsegment := List.prefix_of_prefix_length_le hleft hright (by simp; decide)
  rw [List.prefix_append_right_inj] at hsegment
  exact absurd hsegment (by decide)

/-! ## Paths of steps -/

theorem ofSteps_ne_root {steps : List PathStep} (h : steps ≠ []) : ofSteps steps ≠ root := by
  intro hroot
  have hsame : ofSteps steps = ofSteps [] := hroot
  exact h (ofSteps_injective hsame)

/-- Below the root, a path covers those of the steps that go on from its own. -/
theorem covers_ofSteps {steps steps' : List PathStep} (h : steps ≠ []) :
    covers (ofSteps steps) (ofSteps steps') = true ↔ steps <+: steps' := by
  rw [covers_iff]
  constructor
  · rintro (heq | ⟨rest, hrest⟩)
    · obtain rfl := ofSteps_injective heq
      exact List.prefix_refl _
    · have hsplit := congrArg (List.splitOn '.') hrest
      rw [List.splitOn_append_cons_self, splitOn_ofSteps, splitOn_ofSteps] at hsplit
      have hsteps := congrArg (List.filterMap PathStep.ofSegment?) hsplit
      rw [List.filterMap_append, filterMap_segments, filterMap_segments] at hsteps
      exact ⟨_, hsteps.symm⟩
  · rintro ⟨more, rfl⟩
    cases more with
    | nil =>
      rw [List.append_nil]
      exact Or.inl rfl
    | cons s more =>
      refine Or.inr ⟨s.segment.toList ++ more.flatMap fun s => '.' :: s.segment.toList, ?_⟩
      rw [ofSteps, List.foldl_append]
      exact toList_foldl_child (ofSteps_ne_root h) (s :: more)

theorem ofSteps_ne_empty (steps : List PathStep) : ofSteps steps ≠ "" := by
  intro hempty
  have hvalid := isValid_ofSteps steps
  rw [hempty] at hvalid
  exact absurd hvalid (by decide)

end Path

namespace Expr

theorem at?_append (e : Expr) (steps more : List PathStep) :
    e.at? (steps ++ more) = (e.at? steps).bind fun x => x.at? more := by
  induction steps generalizing e with
  | nil => rfl
  | cons s steps ih =>
    rw [List.cons_append, at?, at?]
    cases e.child? s with
    | none => rfl
    | some c => exact ih c

theorem exists_at?_of_mem {e n : Expr} (h : n ∈ e.nodes) : ∃ steps, e.at? steps = some n := by
  have hmem : some n ∈ e.nodes.map some := List.mem_map_of_mem h
  rw [nodes_eq] at hmem
  obtain ⟨steps, -, hsteps⟩ := List.mem_map.1 hmem
  exact ⟨steps, hsteps⟩

/-! ## Nodes with paths -/

section
variable {e x c : Expr} {p : String} {s : PathStep}

theorem ne_empty_of_mem_nodes (hx : x ∈ e.assignPaths.nodes) (hp : x.path = some p) : p ≠ "" := by
  obtain ⟨steps, hat⟩ := exists_at?_of_mem hx
  rw [path_of_at? hat, Option.some.injEq] at hp
  rw [← hp]
  exact Path.ofSteps_ne_empty steps

theorem path_of_child? (hx : x ∈ e.assignPaths.nodes) (hp : x.path = some p)
    (hc : x.child? s = some c) : c.path = some (Path.child p s) := by
  obtain ⟨steps, hat⟩ := exists_at?_of_mem hx
  have hchild : e.assignPaths.at? (steps ++ [s]) = some c := by
    rw [at?_append, hat, Option.bind_some, at?, hc]
    rfl
  rw [path_of_at? hat, Option.some.injEq] at hp
  rw [path_of_at? hchild, Path.ofSteps_append, hp]

/-- The path of a child covers the paths of the nodes below it, and no other of the
expression. -/
theorem covers_child_iff (hx : x ∈ e.assignPaths.nodes) (hp : x.path = some p)
    (hc : x.child? s = some c) {q : String} (hq : ∃ n ∈ e.assignPaths.nodes, n.path = some q) :
    Path.covers (Path.child p s) q = true ↔ ∃ n ∈ c.nodes, n.path = some q := by
  obtain ⟨steps, hat⟩ := exists_at?_of_mem hx
  have hbelow : ∀ more, e.assignPaths.at? (steps ++ [s] ++ more) = c.at? more := by
    intro more
    rw [at?_append, at?_append, hat, Option.bind_some, at?, hc]
    rfl
  obtain ⟨n, hn, hnq⟩ := hq
  obtain ⟨steps', hat'⟩ := exists_at?_of_mem hn
  rw [path_of_at? hat, Option.some.injEq] at hp
  rw [path_of_at? hat', Option.some.injEq] at hnq
  rw [← hp, ← hnq, ← Path.ofSteps_append, Path.covers_ofSteps (by simp)]
  constructor
  · rintro ⟨more, rfl⟩
    rw [hbelow] at hat'
    exact ⟨n, mem_nodes_of_at? hat', by rw [path_of_at? ((hbelow more).trans hat')]⟩
  · rintro ⟨n', hn', hpath⟩
    obtain ⟨more, hmore⟩ := exists_at?_of_mem hn'
    rw [path_of_at? ((hbelow more).trans hmore), Option.some.injEq] at hpath
    exact ⟨more, Path.ofSteps_injective hpath⟩

end

end Expr
end FormulaMap

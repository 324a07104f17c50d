/-
Paths as addresses.

A path is the text of the steps that lead from the root to a node.  `segments` are
the parts between its points, and they give the steps back, so different nodes of an
expression have different paths and every path that is assigned is well formed.
`Expr.Addressed` is what the rest of the development needs to know of an expression
whose nodes have been given paths.
-/
import FormulaMap.Formula.Path
import Mathlib.Data.List.Nodup

namespace FormulaMap

namespace PathStep

/-- The step that a segment stands for. -/
def ofSegment? (cs : List Char) : Option PathStep :=
  [left, right, numerator, denominator, argument].find? fun s => s.segment.toList == cs

theorem ofSegment?_segment (s : PathStep) : ofSegment? s.segment.toList = some s := by
  cases s <;> decide

theorem segment_injective {s s' : PathStep} (h : s.segment.toList = s'.segment.toList) : s = s' := by
  have hread := congrArg ofSegment? h
  rw [ofSegment?_segment, ofSegment?_segment] at hread
  exact Option.some.inj hread

theorem point_not_mem_segment (s : PathStep) : '.' ∉ s.segment.toList := by
  cases s <;> decide

end PathStep

namespace Path

/-! ## The text of a list of steps -/

/-- The path that the steps lead to. -/
def ofSteps (steps : List PathStep) : String := steps.foldl child root

/-- What stands between the points of a path: a first step to an operand stands for
itself, any other list of steps comes after the root. -/
def segments : List PathStep → List (List Char)
  | [] => [root.toList]
  | s :: rest =>
    if s.isTerm then s.segment.toList :: rest.map (·.segment.toList)
    else root.toList :: s.segment.toList :: rest.map (·.segment.toList)

theorem ofSteps_append (steps : List PathStep) (s : PathStep) :
    ofSteps (steps ++ [s]) = child (ofSteps steps) s := by
  rw [ofSteps, List.foldl_append]
  rfl

theorem ne_root_of_point {p : String} (h : '.' ∈ p.toList) : p ≠ root := by
  rintro rfl
  exact absurd h (by decide)

theorem toList_child {p : String} (hp : p ≠ root) (s : PathStep) :
    (child p s).toList = p.toList ++ '.' :: s.segment.toList := by
  have hnot : (s.isTerm && p == root) = false := by
    rw [beq_eq_false_iff_ne.2 hp, Bool.and_false]
  rw [child, hnot, if_neg Bool.false_ne_true]
  simp

theorem toList_foldl_child {p : String} (hp : p ≠ root) (steps : List PathStep) :
    (steps.foldl child p).toList = p.toList ++ steps.flatMap fun s => '.' :: s.segment.toList := by
  induction steps generalizing p with
  | nil => simp
  | cons s rest ih =>
    have hchild := toList_child hp s
    have hne : child p s ≠ root := ne_root_of_point (by rw [hchild]; simp)
    rw [List.foldl_cons, ih hne, hchild, List.flatMap_cons, List.append_assoc]

theorem splitOn_flatMap {head : List Char} (hhead : '.' ∉ head) (steps : List PathStep) :
    (head ++ steps.flatMap fun s => '.' :: s.segment.toList).splitOn '.' =
      head :: steps.map (·.segment.toList) := by
  induction steps generalizing head with
  | nil =>
    rw [List.flatMap_nil, List.append_nil, List.map_nil]
    exact List.splitOn_eq_singleton hhead
  | cons s rest ih =>
    rw [List.flatMap_cons, List.cons_append, List.splitOn_append_cons_self_of_not_mem hhead,
      ih s.point_not_mem_segment, List.map_cons]

theorem splitOn_ofSteps (steps : List PathStep) :
    (ofSteps steps).toList.splitOn '.' = segments steps := by
  cases steps with
  | nil => exact List.splitOn_eq_singleton (by decide)
  | cons s rest =>
    rw [ofSteps, List.foldl_cons, segments]
    cases hs : s.isTerm with
    | true =>
      have hchild : child root s = s.segment := by
        rw [child, hs, beq_self_eq_true]
        rfl
      have hne : s.segment ≠ root := by
        cases s <;> decide
      rw [hchild, toList_foldl_child hne, splitOn_flatMap s.point_not_mem_segment, if_pos rfl]
    | false =>
      have hchild : child root s = root ++ "." ++ s.segment := by
        rw [child, hs]
        rfl
      have hne : root ++ "." ++ s.segment ≠ root := ne_root_of_point (by simp)
      have hroot : '.' ∉ root.toList := by decide
      rw [hchild, toList_foldl_child hne, if_neg Bool.false_ne_true]
      simp only [String.toList_append, List.append_assoc]
      show (root.toList ++ '.' :: (s.segment.toList ++ _)).splitOn '.' = _
      rw [List.splitOn_append_cons_self_of_not_mem hroot, splitOn_flatMap s.point_not_mem_segment]

theorem filterMap_segments (steps : List PathStep) :
    (segments steps).filterMap PathStep.ofSegment? = steps := by
  have hmap : ∀ rest : List PathStep,
      (rest.map (·.segment.toList)).filterMap PathStep.ofSegment? = rest := by
    intro rest
    rw [List.filterMap_map]
    have hstep : (PathStep.ofSegment? ∘ fun s : PathStep => s.segment.toList) = some :=
      funext PathStep.ofSegment?_segment
    rw [hstep, List.filterMap_some]
  cases steps with
  | nil => decide
  | cons s rest =>
    rw [segments]
    split
    · rw [List.filterMap_cons, PathStep.ofSegment?_segment, hmap]
    · have hroot : PathStep.ofSegment? root.toList = none := by decide
      rw [List.filterMap_cons, hroot]
      dsimp only
      rw [List.filterMap_cons, PathStep.ofSegment?_segment, hmap]

theorem ofSteps_injective {steps steps' : List PathStep} (h : ofSteps steps = ofSteps steps') :
    steps = steps' := by
  rw [← filterMap_segments steps, ← filterMap_segments steps', ← splitOn_ofSteps,
    ← splitOn_ofSteps, h]

theorem isSegment_segment (s : PathStep) : isSegment s.segment.toList = true := by
  cases s <;> decide

theorem isValid_ofSteps (steps : List PathStep) : isValid (ofSteps steps) = true := by
  have hall : ∀ rest : List PathStep, (rest.map (·.segment.toList)).all isSegment = true := by
    intro rest
    rw [List.all_map, List.all_eq_true]
    exact fun s _ => isSegment_segment s
  rw [isValid, splitOn_ofSteps]
  cases steps with
  | nil => rfl
  | cons s rest =>
    rw [segments]
    cases hs : s.isTerm with
    | true =>
      have hne : s.segment.toList ≠ root.toList := by
        cases s <;> decide
      have hterm : isTermSegment s.segment.toList = true := by
        cases s <;> first | decide | exact absurd hs (by decide)
      rw [if_pos rfl]
      dsimp only
      rw [if_neg hne, hterm, hall]
      rfl
    | false =>
      have hinner : isInnerSegment s.segment.toList = true := by
        cases s <;> first | decide | exact absurd hs (by decide)
      rw [if_neg Bool.false_ne_true]
      dsimp only
      rw [if_pos rfl, hinner, hall]
      rfl

end Path

namespace Expr

/-! ## The places of an expression -/

/-- The steps to every node, in reading order. -/
def addresses : Expr → List (List PathStep)
  | numeral _ _ => [[]]
  | binary _ l r _ => l.addresses.map (.left :: ·) ++ [] :: r.addresses.map (.right :: ·)
  | negation a _ => [] :: a.addresses.map (.argument :: ·)
  | fraction n d _ =>
    [] :: (n.addresses.map (.numerator :: ·) ++ d.addresses.map (.denominator :: ·))
  | mixed _ _ _ _ => [[]]

theorem nodup_map_cons {as : List (List PathStep)} (h : as.Nodup) (s : PathStep) :
    (as.map (s :: ·)).Nodup :=
  h.map fun _ _ heq => (List.cons.inj heq).2

theorem addresses_nodup (e : Expr) : e.addresses.Nodup := by
  induction e with
  | numeral t p => exact List.nodup_singleton _
  | binary o l r p ihl ihr =>
    rw [addresses, List.nodup_append, List.nodup_cons]
    refine ⟨nodup_map_cons ihl _, ⟨by simp, nodup_map_cons ihr _⟩, ?_⟩
    intro a ha b hb
    obtain ⟨a', -, rfl⟩ := List.mem_map.1 ha
    rcases List.mem_cons.1 hb with rfl | hb
    · simp
    · obtain ⟨b', -, rfl⟩ := List.mem_map.1 hb
      simp
  | negation a p ih =>
    rw [addresses, List.nodup_cons]
    exact ⟨by simp, nodup_map_cons ih _⟩
  | fraction n d p ihn ihd =>
    rw [addresses, List.nodup_cons, List.nodup_append]
    refine ⟨by simp, nodup_map_cons ihn _, nodup_map_cons ihd _, ?_⟩
    intro a ha b hb
    obtain ⟨a', -, rfl⟩ := List.mem_map.1 ha
    obtain ⟨b', -, rfl⟩ := List.mem_map.1 hb
    simp
  | mixed w n d p => exact List.nodup_singleton _

theorem map_ofSteps_cons (steps : List PathStep) (s : PathStep) (as : List (List PathStep)) :
    (as.map (s :: ·)).map (fun a => some (Path.ofSteps (steps ++ a))) =
      as.map fun a => some (Path.ofSteps (steps ++ [s] ++ a)) := by
  simp

/-- Assigning paths gives the node at every address the path that leads there. -/
theorem map_path_nodes_assignFrom (e : Expr) (steps : List PathStep) :
    (e.assignFrom (Path.ofSteps steps)).nodes.map path =
      e.addresses.map fun a => some (Path.ofSteps (steps ++ a)) := by
  induction e generalizing steps with
  | numeral t p => simp [assignFrom, nodes, addresses, path]
  | binary o l r p ihl ihr =>
    rw [assignFrom, nodes, addresses, List.map_append, List.map_append, List.map_cons,
      List.map_cons, ← Path.ofSteps_append, ← Path.ofSteps_append, ihl, ihr, map_ofSteps_cons,
      map_ofSteps_cons, List.append_nil]
    rfl
  | negation a p ih =>
    rw [assignFrom, nodes, addresses, List.map_cons, List.map_cons, ← Path.ofSteps_append, ih,
      map_ofSteps_cons, List.append_nil]
    rfl
  | fraction n d p ihn ihd =>
    rw [assignFrom, nodes, addresses, List.map_cons, List.map_cons, List.map_append,
      List.map_append, ← Path.ofSteps_append, ← Path.ofSteps_append, ihn, ihd, map_ofSteps_cons,
      map_ofSteps_cons, List.append_nil]
    rfl
  | mixed w n d p => simp [assignFrom, nodes, addresses, path]

/-- Every node has a well-formed path, and no two nodes have the same. -/
structure Addressed (e : Expr) : Prop where
  located : ∀ n ∈ e.nodes, ∃ p, n.path = some p ∧ Path.isValid p = true
  distinct : (e.nodes.map path).Nodup

theorem addressed_assignPaths (e : Expr) : e.assignPaths.Addressed := by
  have hpaths : e.assignPaths.nodes.map path = e.addresses.map fun a => some (Path.ofSteps a) :=
    map_path_nodes_assignFrom e []
  constructor
  · intro n hn
    have hmem := List.mem_map_of_mem (f := path) hn
    rw [hpaths] at hmem
    obtain ⟨a, -, ha⟩ := List.mem_map.1 hmem
    exact ⟨Path.ofSteps a, ha.symm, Path.isValid_ofSteps a⟩
  · rw [hpaths]
    refine e.addresses_nodup.map ?_
    intro a b heq
    exact Path.ofSteps_injective (Option.some.inj heq)

theorem Addressed.nodeAt?_eq {e x : Expr} {p : String} (h : e.Addressed) (hx : x ∈ e.nodes)
    (hp : x.path = some p) : e.nodeAt? p = some x := by
  have hfound : (e.nodeAt? p).isSome = true := by
    rw [nodeAt?, List.find?_isSome]
    exact ⟨x, hx, by rw [hp, beq_self_eq_true]⟩
  obtain ⟨y, hy⟩ := Option.isSome_iff_exists.1 hfound
  have hfind : e.nodes.find? (fun n => n.path == some p) = some y := hy
  have htest := List.find?_some hfind
  have hyp : y.path = some p := beq_iff_eq.1 htest
  rw [hy, List.inj_on_of_nodup_map h.distinct (List.mem_of_find?_eq_some hfind) hx
    (hyp.trans hp.symm)]

end Expr
end FormulaMap

/-
The language of paths.

`Path.IsAddress` says that a path is assigned to some node of some expression, and
`Path.isValid` is the check that is made on a text.  Every list of steps leads somewhere
(`Expr.along`), so the addresses are the texts of the lists of steps.  The check asks of
every segment whether it spells a step, and lets a line feed stand after an operand's
segment; `isValid_iff` says that the texts that pass are the addresses with such line
feeds added, and `isAddress_iff` that the addresses are the texts that pass and have no
line feed.
-/
import FormulaMap.Proofs.Formula.Places
import FormulaMap.Proofs.Text.Words

namespace FormulaMap

/-! ## Every list of steps leads somewhere -/

namespace Expr

/-- An expression with a node at the end of the steps. -/
def along : List PathStep → Expr
  | [] => numeral "1" none
  | .left :: more => binary .add (along more) (numeral "1" none) none
  | .right :: more => binary .add (numeral "1" none) (along more) none
  | .numerator :: more => fraction (along more) (numeral "1" none) none
  | .denominator :: more => fraction (numeral "1" none) (along more) none
  | .argument :: more => negation (along more) none

theorem textsPresent_along (steps : List PathStep) : (along steps).textsPresent = true := by
  induction steps with
  | nil => rfl
  | cons s more ih => cases s <;> simp [along, textsPresent, ih]

theorem mem_addresses_along (steps : List PathStep) : steps ∈ (along steps).addresses := by
  induction steps with
  | nil => exact List.mem_singleton_self _
  | cons s more ih =>
    have hchild : (along (s :: more)).child? s = some (along more) := by
      cases s <;> rfl
    exact mem_addresses_cons hchild ih

theorem map_path_nodes_assignPaths (e : Expr) :
    e.assignPaths.nodes.map path = e.addresses.map fun a => some (Path.ofSteps a) :=
  map_path_nodes_assignFrom e []

theorem path_of_mem_nodes_assignPaths {e n : Expr} (hn : n ∈ e.assignPaths.nodes) :
    ∃ steps, n.path = some (Path.ofSteps steps) := by
  have hmem := List.mem_map_of_mem (f := path) hn
  rw [e.map_path_nodes_assignPaths] at hmem
  obtain ⟨steps, -, hsteps⟩ := List.mem_map.1 hmem
  exact ⟨steps, hsteps.symm⟩

end Expr

namespace Path

/-- Some expression has a node with this path. -/
def IsAddress (p : String) : Prop :=
  ∃ e : Expr, e.textsPresent = true ∧ ∃ n ∈ e.assignPaths.nodes, n.path = some p

theorem isAddress_iff_ofSteps {p : String} : IsAddress p ↔ ∃ steps, ofSteps steps = p := by
  constructor
  · rintro ⟨e, -, n, hn, hp⟩
    obtain ⟨steps, hsteps⟩ := Expr.path_of_mem_nodes_assignPaths hn
    exact ⟨steps, Option.some.inj (hsteps.symm.trans hp)⟩
  · rintro ⟨steps, rfl⟩
    have hmem : some (ofSteps steps) ∈ (Expr.along steps).assignPaths.nodes.map Expr.path := by
      rw [Expr.map_path_nodes_assignPaths]
      exact List.mem_map_of_mem (Expr.mem_addresses_along steps)
    obtain ⟨n, hn, hp⟩ := List.mem_map.1 hmem
    exact ⟨Expr.along steps, Expr.textsPresent_along steps, n, hn, hp⟩

/-! ## What passes for a segment -/

/-- The text of a segment, or that of an operand's segment with a line feed after it. -/
def Loosely (a b : List Char) : Prop :=
  b = a ∨ (∃ s : PathStep, s.isTerm = true ∧ a = s.segment.toList) ∧ b = a ++ ['\n']

theorem isTermSegment_iff {b : List Char} :
    isTermSegment b = true ↔ ∃ s : PathStep, s.isTerm = true ∧ Loosely s.segment.toList b := by
  rw [isTermSegment]
  constructor
  · intro h
    rw [Bool.or_eq_true, beq_iff_eq, beq_iff_eq] at h
    split at h
    · next hlast =>
      have hb : b = b.dropLast ++ ['\n'] := (List.dropLast_append_getLast? _ hlast).symm
      rcases h with h | h
      · rw [h] at hb
        exact ⟨.left, rfl, Or.inr ⟨⟨.left, rfl, rfl⟩, hb⟩⟩
      · rw [h] at hb
        exact ⟨.right, rfl, Or.inr ⟨⟨.right, rfl, rfl⟩, hb⟩⟩
    · rcases h with h | h
      · exact ⟨.left, rfl, Or.inl h⟩
      · exact ⟨.right, rfl, Or.inl h⟩
  · rintro ⟨s, hs, h⟩
    cases s with
    | left => rcases h with rfl | ⟨-, rfl⟩ <;> decide
    | right => rcases h with rfl | ⟨-, rfl⟩ <;> decide
    | numerator => cases hs
    | denominator => cases hs
    | argument => cases hs

/-- No line feed may follow anything but an operand's segment. -/
theorem loosely_iff_eq {a b : List Char}
    (h : ∀ s : PathStep, s.isTerm = true → s.segment.toList ≠ a) : Loosely a b ↔ b = a := by
  constructor
  · rintro (hb | ⟨⟨s, hs, ha⟩, -⟩)
    · exact hb
    · exact absurd ha.symm (h s hs)
  · exact Or.inl

theorem loosely_root_iff {b : List Char} : Loosely root.toList b ↔ b = root.toList := by
  refine loosely_iff_eq fun s _ => ?_
  cases s <;> decide

theorem loosely_inner_iff {s : PathStep} (hs : s.isTerm = false) {b : List Char} :
    Loosely s.segment.toList b ↔ b = s.segment.toList := by
  refine loosely_iff_eq fun s' hs' heq => ?_
  rw [PathStep.segment_injective heq, hs] at hs'
  exact absurd hs' Bool.false_ne_true

theorem isInnerSegment_iff {b : List Char} :
    isInnerSegment b = true ↔ ∃ s : PathStep, s.isTerm = false ∧ Loosely s.segment.toList b := by
  rw [isInnerSegment, Bool.or_eq_true, Bool.or_eq_true, beq_iff_eq, beq_iff_eq, beq_iff_eq]
  constructor
  · rintro ((h | h) | h)
    · exact ⟨.numerator, rfl, Or.inl h⟩
    · exact ⟨.denominator, rfl, Or.inl h⟩
    · exact ⟨.argument, rfl, Or.inl h⟩
  · rintro ⟨s, hs, h⟩
    rw [loosely_inner_iff hs] at h
    cases s with
    | left => cases hs
    | right => cases hs
    | numerator => exact Or.inl (Or.inl h)
    | denominator => exact Or.inl (Or.inr h)
    | argument => exact Or.inr h

theorem isSegment_iff {b : List Char} :
    isSegment b = true ↔ ∃ s : PathStep, Loosely s.segment.toList b := by
  rw [isSegment, Bool.or_eq_true, isInnerSegment_iff, isTermSegment_iff]
  constructor
  · rintro (⟨s, -, h⟩ | ⟨s, -, h⟩)
    · exact ⟨s, h⟩
    · exact ⟨s, h⟩
  · rintro ⟨s, h⟩
    cases hs : s.isTerm with
    | true => exact Or.inr ⟨s, hs, h⟩
    | false => exact Or.inl ⟨s, hs, h⟩

theorem all_isSegment_iff {bs : List (List Char)} :
    bs.all isSegment = true ↔
      ∃ steps : List PathStep, List.Forall₂ Loosely (steps.map (·.segment.toList)) bs := by
  induction bs with
  | nil => exact ⟨fun _ => ⟨[], .nil⟩, fun _ => rfl⟩
  | cons b bs ih =>
    rw [List.all_cons, Bool.and_eq_true, isSegment_iff, ih]
    constructor
    · rintro ⟨⟨s, hs⟩, steps, hsteps⟩
      exact ⟨s :: steps, .cons hs hsteps⟩
    · rintro ⟨steps, h⟩
      cases steps with
      | nil => cases h
      | cons s steps =>
        cases h with
        | cons hs hsteps => exact ⟨⟨s, hs⟩, steps, hsteps⟩

/-! ## What passes for a path -/

theorem not_loosely_root {s : PathStep} : ¬ Loosely s.segment.toList root.toList := by
  rintro (h | ⟨-, h⟩)
  · revert h
    cases s <;> decide
  · revert h
    cases s <;> decide

/-- The steps of a path that starts with an operand's segment. -/
theorem exists_segments_term_iff {b : List Char} {bs : List (List Char)} (hb : b ≠ root.toList) :
    (∃ steps, List.Forall₂ Loosely (segments steps) (b :: bs)) ↔
      isTermSegment b = true ∧ bs.all isSegment = true := by
  rw [isTermSegment_iff, all_isSegment_iff]
  constructor
  · rintro ⟨steps, h⟩
    cases steps with
    | nil =>
      cases h with
      | cons hroot _ => exact absurd (loosely_root_iff.1 hroot) hb
    | cons s steps =>
      rw [segments] at h
      cases hs : s.isTerm with
      | true =>
        rw [if_pos hs] at h
        cases h with
        | cons hfirst hmore => exact ⟨⟨s, hs, hfirst⟩, steps, hmore⟩
      | false =>
        rw [hs, if_neg Bool.false_ne_true] at h
        cases h with
        | cons hroot _ => exact absurd (loosely_root_iff.1 hroot) hb
  · rintro ⟨⟨s, hs, hfirst⟩, steps, hmore⟩
    refine ⟨s :: steps, ?_⟩
    rw [segments, if_pos hs]
    exact .cons hfirst hmore

/-- The steps of a path that starts at the root: the first one leads to no operand. -/
theorem exists_segments_root_iff {first : List Char} {more : List (List Char)} :
    (∃ steps, List.Forall₂ Loosely (segments steps) (root.toList :: first :: more)) ↔
      isInnerSegment first = true ∧ more.all isSegment = true := by
  rw [isInnerSegment_iff, all_isSegment_iff]
  constructor
  · rintro ⟨steps, h⟩
    cases steps with
    | nil =>
      cases h with
      | cons _ hrest => cases hrest
    | cons s steps =>
      rw [segments] at h
      cases hs : s.isTerm with
      | true =>
        rw [if_pos hs] at h
        cases h with
        | cons hroot _ => exact absurd hroot not_loosely_root
      | false =>
        rw [hs, if_neg Bool.false_ne_true] at h
        cases h with
        | cons _ hrest =>
          cases hrest with
          | cons hfirst hmore => exact ⟨⟨s, hs, hfirst⟩, steps, hmore⟩
  · rintro ⟨⟨s, hs, hfirst⟩, steps, hmore⟩
    refine ⟨s :: steps, ?_⟩
    rw [segments, hs, if_neg Bool.false_ne_true]
    exact .cons (Or.inl rfl) (.cons hfirst hmore)

/-- A text passes when its segments are, loosely, those of some steps. -/
theorem isValid_iff_segments {p : String} :
    isValid p = true ↔ ∃ steps, List.Forall₂ Loosely (segments steps) (p.toList.splitOn '.') := by
  have hne := List.splitOn_ne_nil '.' p.toList
  rw [isValid]
  generalize p.toList.splitOn '.' = bs at hne
  cases bs with
  | nil => exact absurd rfl hne
  | cons b bs =>
    dsimp only
    by_cases hb : b = root.toList
    · rw [if_pos hb, hb]
      cases bs with
      | nil => exact ⟨fun _ => ⟨[], .cons (Or.inl rfl) .nil⟩, fun _ => rfl⟩
      | cons first more =>
        dsimp only
        rw [Bool.and_eq_true, exists_segments_root_iff]
    · rw [if_neg hb, Bool.and_eq_true, exists_segments_term_iff hb]

/-- The second text is the first with a line feed after some operands' segments. -/
def Padded (q p : String) : Prop :=
  List.Forall₂ Loosely (q.toList.splitOn '.') (p.toList.splitOn '.')

/-- The texts that pass are the addresses, with line feeds that may follow operands. -/
theorem isValid_iff {p : String} : isValid p = true ↔ ∃ q, IsAddress q ∧ Padded q p := by
  rw [isValid_iff_segments]
  constructor
  · rintro ⟨steps, h⟩
    refine ⟨ofSteps steps, isAddress_iff_ofSteps.2 ⟨steps, rfl⟩, ?_⟩
    rwa [Padded, splitOn_ofSteps]
  · rintro ⟨q, hq, h⟩
    obtain ⟨steps, rfl⟩ := isAddress_iff_ofSteps.1 hq
    rw [Padded, splitOn_ofSteps] at h
    exact ⟨steps, h⟩

/-! ## Line feeds -/

/-- Segments are cut at points only, so every other character is in one of them. -/
theorem mem_toList_iff {p : String} {c : Char} (hc : c ≠ '.') :
    c ∈ p.toList ↔ ∃ b ∈ p.toList.splitOn '.', c ∈ b := by
  rw [← Text.mem_intercalate_iff hc, List.intercalate_splitOn]

theorem mem_segments {b : List Char} {steps : List PathStep} (h : b ∈ segments steps) :
    b = root.toList ∨ ∃ s : PathStep, b = s.segment.toList := by
  have hmap : ∀ rest : List PathStep, b ∈ rest.map (·.segment.toList) →
      ∃ s : PathStep, b = s.segment.toList := by
    intro rest hb
    obtain ⟨s, -, hs⟩ := List.mem_map.1 hb
    exact ⟨s, hs.symm⟩
  cases steps with
  | nil => exact Or.inl (List.mem_singleton.1 h)
  | cons s rest =>
    rw [segments] at h
    split at h
    · exact Or.inr (hmap (s :: rest) h)
    · rcases List.mem_cons.1 h with hroot | hb
      · exact Or.inl hroot
      · exact Or.inr (hmap (s :: rest) hb)

/-- The characters of points, of the root and of the segments. -/
def alphabet : List Char := "root.term[01].num.den.arg".toList

theorem mem_alphabet {c : Char} {steps : List PathStep} (h : c ∈ (ofSteps steps).toList) :
    c ∈ alphabet := by
  have hroot : root.toList ⊆ alphabet := by decide
  have hsegment : ∀ s : PathStep, s.segment.toList ⊆ alphabet := by
    intro s
    cases s <;> decide
  by_cases hc : c = '.'
  · rw [hc]
    decide
  · rw [mem_toList_iff hc, splitOn_ofSteps] at h
    obtain ⟨b, hb, hmem⟩ := h
    rcases mem_segments hb with rfl | ⟨s, rfl⟩
    · exact hroot hmem
    · exact hsegment s hmem

theorem feed_not_mem_ofSteps (steps : List PathStep) : '\n' ∉ (ofSteps steps).toList :=
  fun hfeed => absurd (mem_alphabet hfeed) (by decide)

theorem eq_of_forall₂_loosely {as bs : List (List Char)} (h : List.Forall₂ Loosely as bs)
    (hbs : ∀ b ∈ bs, '\n' ∉ b) : bs = as := by
  induction h with
  | nil => rfl
  | @cons a b as bs hab _ ih =>
    rw [ih fun b' hb' => hbs b' (List.mem_cons_of_mem b hb')]
    rcases hab with rfl | ⟨-, rfl⟩
    · rfl
    · exact absurd (List.mem_append_right a (List.mem_singleton_self _))
        (hbs _ List.mem_cons_self)

/-- The addresses are the texts that pass and have no line feed. -/
theorem isAddress_iff {p : String} : IsAddress p ↔ isValid p = true ∧ '\n' ∉ p.toList := by
  constructor
  · intro h
    obtain ⟨steps, rfl⟩ := isAddress_iff_ofSteps.1 h
    exact ⟨isValid_ofSteps steps, feed_not_mem_ofSteps steps⟩
  · rintro ⟨hvalid, hfeed⟩
    obtain ⟨steps, h⟩ := isValid_iff_segments.1 hvalid
    have hsegments : p.toList.splitOn '.' = segments steps := by
      refine eq_of_forall₂_loosely h fun b hb hmem => ?_
      exact hfeed ((mem_toList_iff (by decide)).2 ⟨b, hb, hmem⟩)
    have hjoin : List.intercalate ['.'] (p.toList.splitOn '.') = p.toList :=
      List.intercalate_splitOn '.'
    have hlist : (ofSteps steps).toList = p.toList := by
      rw [← hjoin, hsegments, ← splitOn_ofSteps, List.intercalate_splitOn]
    exact isAddress_iff_ofSteps.2 ⟨steps, String.toList_inj.1 hlist⟩

end Path
end FormulaMap

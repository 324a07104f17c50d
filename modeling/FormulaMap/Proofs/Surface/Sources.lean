/-
The elements that nodes are made from.

The walk carries the address of the element it is at, and a node keeps it as its
source.  The address is never looked up while a map is built, so that it leads to the
element is an invariant of the walk: it holds of the groups that are selected, and it
is handed on from an element to its children (`Reaches.child`).  So every node of a
built map but the root has a source below the container, and has been placed from a
draft of the element there, or of a piece of its text (`SurfaceMap.exists_source`).
-/
import FormulaMap.Proofs.Surface.Placement

namespace FormulaMap

variable {α : Type}

namespace Tree

/-- To go down two addresses one after the other is to go down the two in one. -/
theorem at?_append (t : Tree α) (a b : Address) :
    t.at? (a ++ b) = (t.at? a).bind fun s => s.at? b := by
  induction a generalizing t with
  | nil => rfl
  | cons i rest ih =>
    rw [List.cons_append, at?, at?]
    cases t.children[i]? with
    | none => rfl
    | some c => exact ih c

/-- `here` leads to `l`, when `root` itself stands at `base`. -/
def Reaches (base : Address) (root : Tree α) (here : Address) (l : Tree α) : Prop :=
  ∃ a, here = base ++ a ∧ root.at? a = some l

/-- The same, and `l` is not the root. -/
def ReachesBelow (base : Address) (root : Tree α) (here : Address) (l : Tree α) : Prop :=
  ∃ a, a ≠ [] ∧ here = base ++ a ∧ root.at? a = some l

variable {base here : Address} {root l c : Tree α} {i : Nat}

theorem Reaches.self (base : Address) (root : Tree α) : Reaches base root base root :=
  ⟨[], (List.append_nil base).symm, rfl⟩

theorem ReachesBelow.reaches (h : ReachesBelow base root here l) : Reaches base root here l := by
  obtain ⟨a, -, hhere, hat⟩ := h
  exact ⟨a, hhere, hat⟩

theorem Reaches.child (h : Reaches base root here l) (hc : l.children[i]? = some c) :
    ReachesBelow base root (here ++ [i]) c := by
  obtain ⟨a, rfl, hat⟩ := h
  refine ⟨a ++ [i], List.append_ne_nil_of_right_ne_nil a (List.cons_ne_nil i []),
    List.append_assoc base a [i], ?_⟩
  rw [at?_append, hat, Option.bind_some, at?, hc]
  rfl

/-- What is true of every child is handed down a list of children one at a time. -/
theorem reaches_cons {ts : List (Tree α)} {t : Tree α}
    (h : ∀ j c, (t :: ts)[j]? = some c → ReachesBelow base root (here ++ [i + j]) c) :
    ReachesBelow base root (here ++ [i]) t ∧
      ∀ j c, ts[j]? = some c → ReachesBelow base root (here ++ [i + 1 + j]) c := by
  refine ⟨h 0 t rfl, fun j c hc => ?_⟩
  have hnext := h (j + 1) c hc
  rwa [Nat.add_comm j 1, ← Nat.add_assoc] at hnext

end Tree

/-! ## Selected elements -/

namespace Layout

open FormulaMap.Tree (Reaches ReachesBelow reaches_cons)

variable {base : Address} {root : Layout α}

mutual

theorem reaches_selectBelow (outer inner : String) (inside : Bool) (here : Address) :
    ∀ l : Layout α, Reaches base root here l →
      ∀ p ∈ selectBelow outer inner inside here l, ReachesBelow base root p.1 p.2
  | .node e cs => by
    intro hl
    rw [selectBelow]
    refine reaches_selectAmong outer inner _ here 0 cs fun j c hc => ?_
    rw [Nat.zero_add]
    exact hl.child hc

theorem reaches_selectAmong (outer inner : String) (inside : Bool) (here : Address) (i : Nat) :
    ∀ ts : List (Layout α),
      (∀ j c, ts[j]? = some c → ReachesBelow base root (here ++ [i + j]) c) →
      ∀ p ∈ selectAmong outer inner inside here i ts, ReachesBelow base root p.1 p.2
  | [] => by
    intro _ p hp
    rw [selectAmong] at hp
    exact absurd hp List.not_mem_nil
  | t :: ts => by
    intro hts p hp
    obtain ⟨ht, hrest⟩ := reaches_cons hts
    rw [selectAmong, List.append_assoc] at hp
    rcases List.mem_append.1 hp with hp | hp
    · split at hp
      · rw [List.mem_singleton.1 hp]
        exact ht
      · exact absurd hp List.not_mem_nil
    · rcases List.mem_append.1 hp with hp | hp
      · exact reaches_selectBelow outer inner inside (here ++ [i]) t ht.reaches p hp
      · exact reaches_selectAmong outer inner inside here (i + 1) ts hrest p hp

end

end Layout

/-! ## Drafts -/

namespace Draft

/-- The text and category are those of an element, or those of a segment of its text. -/
def Shows (d : Draft α) (l : Layout α) : Prop :=
  if d.synthetic then
    ∃ s ∈ Segment.ofString (Text.trim l.content), d.text = s.text ∧ d.category = s.kind.category
  else
    d.text = Text.trim l.content ∧ d.category = Category.of l.value.classes d.text

/-- The draft shows the element that its source leads to. -/
def Sourced (base : Address) (root : Layout α) (d : Draft α) : Prop :=
  ∃ l, Tree.ReachesBelow base root d.source l ∧ d.Shows l

end Draft

namespace SurfaceMap

open FormulaMap.Tree (Reaches ReachesBelow reaches_cons)

variable [Coordinate α] {base : Address} {root : Layout α}

theorem sourced_segmentDrafts {here : Address} {l : Layout α}
    (hl : ReachesBelow base root here l) (box : Box α) :
    ∀ d ∈ Tree.preorderAll (segmentDrafts here box (Text.trimChars l.content.toList)),
      d.Sourced base root := by
  intro d hd
  unfold segmentDrafts at hd
  dsimp only at hd
  have hmem : ∀ p ∈ (Segment.scan (Text.trimChars l.content.toList)).zipIdx,
      p.1 ∈ Segment.ofString (Text.trim l.content) := by
    intro p hp
    rw [Segment.ofString, Text.trim, String.toList_ofList]
    exact List.fst_mem_of_mem_zipIdx hp
  generalize (Segment.scan (Text.trimChars l.content.toList)).zipIdx = segments at hd hmem
  induction segments with
  | nil => exact absurd hd List.not_mem_nil
  | cons p rest ih =>
    rw [List.map_cons, Tree.preorderAll, Tree.preorder, Tree.preorderAll] at hd
    rcases List.mem_append.1 hd with hd | hd
    · rw [List.mem_singleton.1 hd]
      exact ⟨l, hl, p.1, hmem p List.mem_cons_self, rfl, rfl⟩
    · exact ih hd fun q hq => hmem q (List.mem_cons_of_mem p hq)

mutual

theorem sourced_walk (t : Tolerances α) (origin : Box α) (here : Address) :
    ∀ l : Layout α, ReachesBelow base root here l →
      ∀ d ∈ Tree.preorderAll (walk t origin here l), d.Sourced base root
  | .node e ts => by
    intro hl d hd
    have hall := sourced_walkAll t origin here 0 ts fun j c hc => by
      rw [Nat.zero_add]
      exact hl.reaches.child hc
    rw [walk.eq_def] at hd
    dsimp only at hd
    generalize hcategory : Category.of e.classes _ = category at hd
    split at hd
    · exact hall d hd
    · split at hd
      · cases ts with
        | nil => exact sourced_segmentDrafts hl _ d hd
        | cons u us => exact hall d hd
      · split at hd
        · exact hall d hd
        · rw [Tree.preorderAll, Tree.preorder, Tree.preorderAll, List.append_nil] at hd
          rcases List.mem_cons.1 hd with rfl | hd
          · exact ⟨_, hl, rfl, hcategory.symm⟩
          · exact hall d hd

theorem sourced_walkAll (t : Tolerances α) (origin : Box α) (here : Address) (i : Nat) :
    ∀ ls : List (Layout α),
      (∀ j c, ls[j]? = some c → ReachesBelow base root (here ++ [i + j]) c) →
      ∀ d ∈ Tree.preorderAll (walkAll t origin here i ls), d.Sourced base root
  | [] => by
    intro _ d hd
    rw [walkAll] at hd
    exact absurd hd List.not_mem_nil
  | l :: ls => by
    intro hls d hd
    obtain ⟨hl, hrest⟩ := reaches_cons hls
    rw [walkAll, Tree.preorderAll_append] at hd
    rcases List.mem_append.1 hd with hd | hd
    · exact sourced_walk t origin (here ++ [i]) l hl d hd
    · exact sourced_walkAll t origin here (i + 1) ls hrest d hd

end

theorem sourced_drafts (t : Tolerances α) (origin : Box α) (groups : List (Address × Layout α))
    (hgroups : ∀ p ∈ groups, ReachesBelow base root p.1 p.2) :
    ∀ d ∈ Tree.preorderAll (groups.flatMap fun (here, group) => walk t origin here group),
      d.Sourced base root := by
  induction groups with
  | nil => exact fun d hd => absurd hd List.not_mem_nil
  | cons g gs ih =>
    intro d hd
    rw [List.flatMap_cons, Tree.preorderAll_append] at hd
    rcases List.mem_append.1 hd with hd | hd
    · exact sourced_walk t origin g.1 g.2 (hgroups g List.mem_cons_self) d hd
    · exact ih (fun p hp => hgroups p (List.mem_cons_of_mem g hp)) d hd

end SurfaceMap

/-! ## Nodes -/

namespace Draft

mutual

theorem exists_of_mem_place (above : List Nat) (k : Nat) :
    ∀ (t : Tree (Draft α)), ∀ n ∈ (place above k t).preorder,
      ∃ d ∈ t.preorder, ∃ above' k', n = d.node above' k'
  | .node d ts => by
    intro n hn
    rw [place, Tree.preorder] at hn
    rw [Tree.preorder]
    rcases List.mem_cons.1 hn with rfl | hn
    · exact ⟨d, List.mem_cons_self, above, k, rfl⟩
    · obtain ⟨d', hd', hnode⟩ := exists_of_mem_placeAll (k :: above) (k + 1) ts n hn
      exact ⟨d', List.mem_cons_of_mem d hd', hnode⟩

theorem exists_of_mem_placeAll (above : List Nat) (k : Nat) :
    ∀ (ts : List (Tree (Draft α))), ∀ n ∈ Tree.preorderAll (placeAll above k ts),
      ∃ d ∈ Tree.preorderAll ts, ∃ above' k', n = d.node above' k'
  | [] => by
    intro n hn
    exact absurd hn List.not_mem_nil
  | t :: ts => by
    intro n hn
    rw [placeAll, Tree.preorderAll] at hn
    rw [Tree.preorderAll]
    rcases List.mem_append.1 hn with hn | hn
    · obtain ⟨d, hd, hnode⟩ := exists_of_mem_place above k t n hn
      exact ⟨d, List.mem_append_left _ hd, hnode⟩
    · obtain ⟨d, hd, hnode⟩ := exists_of_mem_placeAll above (k + t.size) ts n hn
      exact ⟨d, List.mem_append_right _ hd, hnode⟩

end

end Draft

/-- The node has been placed from a draft that shows the element. -/
def Node.MadeFrom (n : Node α) (l : Layout α) : Prop :=
  ∃ d : Draft α, d.Shows l ∧ n = d.node n.above n.number

/-- Every node but the root is made from an element below the container. -/
theorem SurfaceMap.exists_source [Coordinate α] (t : Tolerances α) (container : Address)
    (layout : Layout α) :
    ∀ n ∈ (build t container layout).nodes.tail,
      ∃ l, Tree.ReachesBelow container layout n.source l ∧ n.MadeFrom l := by
  intro n hn
  obtain ⟨d, hd, above, k, rfl⟩ := Draft.exists_of_mem_placeAll [0] 1 _ n hn
  have hselect := Layout.reaches_selectBelow formulaClass groupClass false container layout
    (Tree.Reaches.self container layout)
  obtain ⟨l, hl, hshows⟩ := sourced_drafts t layout.value.box _ hselect d hd
  exact ⟨l, hl, d, hshows, rfl⟩

end FormulaMap

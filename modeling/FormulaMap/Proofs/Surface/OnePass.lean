/-
Building in one pass.

A map is built by making drafts of all nodes and then placing them.  It can also be
built in one pass over the layout that makes every node where it is met: a register
counts the nodes, lists the atoms, and holds for every element the node that was made
from it last.  `visit` is that pass.  It makes the nodes that `walk` drafts, numbered
as `placeAll` numbers them, because the counter at any point of the pass is the number
of nodes that come earlier in preorder (`visit_eq`).  So the register in the end is a
fold over the nodes in preorder (`onePass_eq`), and what it holds can be read off the
map: the atoms are filtered out of the nodes, and the entry of an element is the last
node made from it.
-/
import FormulaMap.Proofs.Surface.Glyphs
import Mathlib.Logic.Function.Basic

namespace FormulaMap

variable {α : Type}

/-! ## The register -/

structure Register (α : Type) where
  /-- How many nodes have been made. -/
  made : Nat
  atoms : List (Node α)
  /-- The node that was made last from an element. -/
  index : Address → Option (Node α)

namespace Register

def start : Register α := ⟨0, [], fun _ => none⟩

def record (n : Node α) (clickable : Bool) (r : Register α) : Register α where
  made := r.made + 1
  atoms := if clickable then r.atoms ++ [n] else r.atoms
  index := Function.update r.index n.source (some n)

theorem made_record (n : Node α) (c : Bool) (r : Register α) :
    (r.record n c).made = r.made + 1 := rfl

theorem atoms_record (n : Node α) (c : Bool) (r : Register α) :
    (r.record n c).atoms = if c then r.atoms ++ [n] else r.atoms := rfl

theorem index_record (n : Node α) (c : Bool) (r : Register α) :
    (r.record n c).index = Function.update r.index n.source (some n) := rfl

/-- The register when nodes have been made one after another. -/
def after (r : Register α) (ns : List (Node α)) : Register α :=
  ns.foldl (fun r n => r.record n n.atom) r

theorem after_cons (r : Register α) (n : Node α) (ns : List (Node α)) :
    r.after (n :: ns) = (r.record n n.atom).after ns := rfl

theorem after_append (r : Register α) (ms ns : List (Node α)) :
    r.after (ms ++ ns) = (r.after ms).after ns :=
  List.foldl_append

theorem made_after (r : Register α) (ns : List (Node α)) :
    (r.after ns).made = r.made + ns.length := by
  induction ns generalizing r with
  | nil => rfl
  | cons n ns ih =>
    rw [after_cons, ih, made_record, List.length_cons]
    omega

theorem atoms_after (r : Register α) (ns : List (Node α)) :
    (r.after ns).atoms = r.atoms ++ ns.filter (·.atom) := by
  induction ns generalizing r with
  | nil => exact (List.append_nil _).symm
  | cons n ns ih =>
    rw [after_cons, ih, atoms_record, List.filter_cons]
    cases n.atom with
    | false => rfl
    | true => exact List.append_assoc _ _ _

/-- A later node from the same element takes the place of an earlier one. -/
theorem index_after (r : Register α) (ns : List (Node α)) (a : Address) :
    (r.after ns).index a = ((ns.filter fun n => n.source == a).getLast?).or (r.index a) := by
  induction ns generalizing r with
  | nil => rfl
  | cons n ns ih =>
    rw [after_cons, ih, index_record, List.filter_cons]
    by_cases ha : n.source = a
    · rw [if_pos (beq_iff_eq.2 ha), ha, Function.update_self, List.getLast?_cons]
      cases (ns.filter fun n => n.source == a).getLast? with
      | none => rfl
      | some m => rfl
    · rw [if_neg (fun h => ha (beq_iff_eq.1 h)), Function.update_of_ne (Ne.symm ha)]

end Register

/-! ## The pass -/

namespace SurfaceMap

variable [Coordinate α]

/-- The nodes of the segments of a text, of which there are `count`. -/
def visitSegments (here : Address) (box : Box α) (count : Nat) (above : List Nat) :
    List (Segment × Nat) → Register α → List (Tree (Node α)) × Register α
  | [], r => ([], r)
  | (s, i) :: rest, r =>
    let d : Draft α := ⟨s.kind.category, box.slice i count, here, s.text, true⟩
    let n := d.node above (r.made + 1)
    let clickable := d.category.atomic && !(Text.trimChars s.text.toList).isEmpty
    let (ts, r) := visitSegments here box count above rest (r.record n clickable)
    (.node n [] :: ts, r)

mutual

/-- The nodes of an element and of what is in it; `above` are the numbers of the nodes
that they will stand under. -/
def visit (t : Tolerances α) (origin : Box α) (here : Address) (above : List Nat) :
    Layout α → Register α → List (Tree (Node α)) × Register α
  | .node e ts, r =>
    let text := Text.trimChars (Layout.content (.node e ts)).toList
    let box := e.box.relativeTo origin
    if Category.isStructural e.classes then visitAll t origin here above 0 ts r
    else if Category.isMixedContent text then
      match ts with
      | [] =>
        let segments := Segment.scan text
        visitSegments here box segments.length above segments.zipIdx r
      | _ :: _ => visitAll t origin here above 0 ts r
    else
      let category := Category.of e.classes (String.ofList text)
      if category.kind = .other && (text.isEmpty || !isVisible t box) then
        visitAll t origin here above 0 ts r
      else
        let d : Draft α := ⟨category, box, here, String.ofList text, false⟩
        let n := d.node above (r.made + 1)
        let (us, r) := visitAll t origin here (n.number :: above) 0 ts (r.record n d.isAtom)
        ([.node n us], r)

/-- The nodes of a list of children, the first of which has index `i`. -/
def visitAll (t : Tolerances α) (origin : Box α) (here : Address) (above : List Nat) (i : Nat) :
    List (Layout α) → Register α → List (Tree (Node α)) × Register α
  | [], r => ([], r)
  | l :: ls, r =>
    let (ts, r) := visit t origin (here ++ [i]) above l r
    let (us, r) := visitAll t origin here above (i + 1) ls r
    (ts ++ us, r)

end

def visitGroups (t : Tolerances α) (origin : Box α) :
    List (Address × Layout α) → Register α → List (Tree (Node α)) × Register α
  | [], r => ([], r)
  | (here, group) :: groups, r =>
    let (ts, r) := visit t origin here [0] group r
    let (us, r) := visitGroups t origin groups r
    (ts ++ us, r)

/-- The map of the layout below a container and the register of its nodes. -/
def onePass (t : Tolerances α) (container : Address) (layout : Layout α) :
    SurfaceMap α × Register α :=
  let origin := layout.value.box
  let groups := layout.select formulaClass groupClass container
  let (ts, r) := visitGroups t origin groups .start
  (⟨.node (rootNode origin container) ts, origin, container⟩, r)

end SurfaceMap

/-! ## Placing with a register -/

namespace Draft

theorem placeAll_append (above : List Nat) (k : Nat) (ts us : List (Tree (Draft α))) :
    placeAll above k (ts ++ us) =
      placeAll above k ts ++ placeAll above (k + Tree.sizeAll ts) us := by
  induction ts generalizing k with
  | nil => rfl
  | cons t ts ih =>
    rw [List.cons_append, placeAll, placeAll, ih, Tree.sizeAll, Nat.add_assoc]
    rfl

theorem length_placeAll (above : List Nat) (k : Nat) (ts : List (Tree (Draft α))) :
    (Tree.preorderAll (placeAll above k ts)).length = Tree.sizeAll ts := by
  have hnumbers := congrArg List.length (numbers_placeAll above k ts)
  rwa [List.length_map, List.length_range'] at hnumbers

end Draft

namespace Register

/-- Places drafts behind the nodes that have been made. -/
def place (above : List Nat) (ts : List (Tree (Draft α))) (r : Register α) :
    List (Tree (Node α)) × Register α :=
  let placed := Draft.placeAll above (r.made + 1) ts
  (placed, r.after (Tree.preorderAll placed))

variable (above : List Nat) (r : Register α)

theorem place_nil : r.place above [] = ([], r) := rfl

theorem place_append (ts us : List (Tree (Draft α))) :
    r.place above (ts ++ us) =
      ((r.place above ts).1 ++ ((r.place above ts).2.place above us).1,
        ((r.place above ts).2.place above us).2) := by
  have hmade : (r.place above ts).2.made + 1 = r.made + 1 + Tree.sizeAll ts := by
    rw [place, made_after, Draft.length_placeAll]
    omega
  rw [place, Draft.placeAll_append, Tree.preorderAll_append, after_append, ← hmade]
  rfl

theorem place_cons (d : Draft α) (cs ts : List (Tree (Draft α))) :
    r.place above (.node d cs :: ts) =
      (let n := d.node above (r.made + 1)
       let below := (r.record n d.isAtom).place (n.number :: above) cs
       let rest := below.2.place above ts
       (.node n below.1 :: rest.1, rest.2)) := by
  have hone : r.place above [.node d cs] =
      (let n := d.node above (r.made + 1)
       let below := (r.record n d.isAtom).place (n.number :: above) cs
       ([.node n below.1], below.2)) := by
    rw [place, Draft.placeAll, Draft.placeAll, Draft.place, Tree.preorderAll, Tree.preorderAll,
      List.append_nil]
    rfl
  rw [← List.singleton_append, place_append, hone]
  rfl

end Register

/-! ## Segments show -/

namespace Text

theorem mem_dropWhile_of_not {p : Char → Bool} {c : Char} {cs : List Char} (hc : c ∈ cs)
    (hp : p c = false) : c ∈ cs.dropWhile p := by
  rw [← List.takeWhile_append_dropWhile (p := p) (l := cs)] at hc
  rcases List.mem_append.1 hc with hc | hc
  · rw [List.all_eq_true.1 List.all_takeWhile c hc] at hp
    exact Bool.noConfusion hp
  · exact hc

theorem mem_trimChars {c : Char} {cs : List Char} (hc : c ∈ cs) (hblank : isBlank c = false) :
    c ∈ trimChars cs :=
  List.mem_reverse.2 (mem_dropWhile_of_not (List.mem_reverse.2 (mem_dropWhile_of_not hc hblank))
    hblank)

theorem isBlank_of_isAsciiLetter {c : Char} (h : isAsciiLetter c = true) :
    isBlank c = false := by
  have hhas : CharSet.has [(65, 90), (97, 122)] c = true := by
    rw [isAsciiLetter, Bool.or_eq_true, Bool.and_eq_true, Bool.and_eq_true, decide_eq_true_eq,
      decide_eq_true_eq, decide_eq_true_eq, decide_eq_true_eq] at h
    rw [CharSet.has_iff]
    rcases h with ⟨hlow, hhigh⟩ | ⟨hlow, hhigh⟩
    · exact ⟨(97, 122), by decide, hlow, hhigh⟩
    · exact ⟨(65, 90), by decide, hlow, hhigh⟩
  exact CharSet.not_has_of_apart (by decide) hhas

theorem isBlank_of_isGreek {c : Char} (h : isGreek c = true) : isBlank c = false :=
  CharSet.not_has_of_apart (by decide) (has_of_isGreek h)

end Text

namespace Segment

theorem text_of_ofChar? {c : Char} {s : Segment} (h : ofChar? c = some s) :
    s.text = String.singleton c ∧ Text.isBlank c = false := by
  unfold ofChar? at h
  split at h
  · next hoperator =>
    cases h
    exact ⟨rfl, Text.isBlank_of_glyphChars (Text.glyphChars_of_isOperatorChar hoperator)⟩
  · split at h
    · next hletter =>
      cases h
      rcases Bool.or_eq_true_iff.1 hletter with hascii | hgreek
      · exact ⟨rfl, Text.isBlank_of_isAsciiLetter hascii⟩
      · exact ⟨rfl, Text.isBlank_of_isGreek hgreek⟩
    · cases h

/-- A segment starts with a character that shows. -/
theorem exists_of_mem_scan {cs : List Char} {s : Segment} (h : s ∈ scan cs) :
    ∃ c rest, s.text.toList = c :: rest ∧ Text.isBlank c = false := by
  induction cs using scan.induct with
  | case1 =>
    rw [scan] at h
    exact absurd h List.not_mem_nil
  | case2 c cs hdigit ih =>
    rw [scan, if_pos hdigit] at h
    rcases List.mem_cons.1 h with rfl | h
    · exact ⟨c, _, String.toList_ofList, Text.isBlank_of_isDigit hdigit⟩
    · exact ih h
  | case3 c cs hdigit ih =>
    rw [scan, if_neg hdigit] at h
    rcases List.mem_append.1 h with h | h
    · obtain ⟨htext, hblank⟩ := text_of_ofChar? (Option.mem_toList.1 h)
      exact ⟨c, [], by rw [htext, String.toList_singleton], hblank⟩
    · exact ih h

/-- So the node of a segment is an atom, whichever way it is asked. -/
theorem isAtom_of_mem_scan {cs : List Char} {s : Segment} (h : s ∈ scan cs) (box : Box α)
    (here : Address) :
    (⟨s.kind.category, box, here, s.text, true⟩ : Draft α).isAtom =
      (s.kind.category.atomic && !(Text.trimChars s.text.toList).isEmpty) := by
  obtain ⟨c, rest, htext, hblank⟩ := exists_of_mem_scan h
  have hmem : c ∈ s.text.toList := by
    rw [htext]
    exact List.mem_cons_self
  have htrim : (Text.trimChars s.text.toList).isEmpty = false :=
    List.isEmpty_eq_false_iff_exists_mem.2 ⟨c, Text.mem_trimChars hmem hblank⟩
  have hempty : s.text.isEmpty = false := by
    rw [String.isEmpty_eq_false_iff]
    rintro hnil
    rw [hnil] at htext
    exact List.cons_ne_nil _ _ htext.symm
  have hatomic : s.kind.category.atomic = true := by
    cases s.kind <;> rfl
  rw [Draft.isAtom, htrim, hempty, hatomic, Bool.not_false, Bool.or_true]
  rfl

end Segment

/-! ## The pass makes the drafted nodes -/

namespace SurfaceMap

variable [Coordinate α]

theorem visitSegments_eq (here : Address) (box : Box α) (count : Nat) (above : List Nat)
    (segments : List (Segment × Nat))
    (hatom : ∀ p ∈ segments, (⟨p.1.kind.category, box.slice p.2 count, here, p.1.text, true⟩ :
      Draft α).isAtom =
        (p.1.kind.category.atomic && !(Text.trimChars p.1.text.toList).isEmpty))
    (r : Register α) :
    visitSegments here box count above segments r =
      r.place above (segments.map fun p =>
        .node ⟨p.1.kind.category, box.slice p.2 count, here, p.1.text, true⟩ []) := by
  induction segments generalizing r with
  | nil => rfl
  | cons p rest ih =>
    have hrest := ih fun q hq => hatom q (List.mem_cons_of_mem p hq)
    rw [List.map_cons, Register.place_cons, hatom p List.mem_cons_self, visitSegments, hrest]
    rfl

mutual

/-- The pass makes the drafts of the walk, and in the same order. -/
theorem visit_eq (t : Tolerances α) (origin : Box α) (here : Address) (above : List Nat) :
    ∀ (l : Layout α) (r : Register α),
      visit t origin here above l r = r.place above (walk t origin here l)
  | .node e ts, r => by
    have hall := visitAll_eq t origin here above 0 ts
    rw [visit.eq_def, walk.eq_def]
    dsimp only
    split
    · exact hall r
    · split
      · cases ts with
        | nil =>
          refine visitSegments_eq here _ _ above _ (fun p hp => ?_) r
          exact Segment.isAtom_of_mem_scan (List.fst_mem_of_mem_zipIdx hp) _ here
        | cons u us => exact hall r
      · split
        · exact hall r
        · rw [visitAll_eq t origin here _ 0 ts, Register.place_cons]
          rfl

theorem visitAll_eq (t : Tolerances α) (origin : Box α) (here : Address) (above : List Nat)
    (i : Nat) :
    ∀ (ls : List (Layout α)) (r : Register α),
      visitAll t origin here above i ls r = r.place above (walkAll t origin here i ls)
  | [], r => by
    rw [visitAll, walkAll, Register.place_nil]
  | l :: ls, r => by
    have hfirst := visit_eq t origin (here ++ [i]) above l
    have hrest := visitAll_eq t origin here above (i + 1) ls
    simp only [visitAll, walkAll, hfirst, hrest, Register.place_append]

end

theorem visitGroups_eq (t : Tolerances α) (origin : Box α) (groups : List (Address × Layout α))
    (r : Register α) :
    visitGroups t origin groups r =
      r.place [0] (groups.flatMap fun (here, group) => walk t origin here group) := by
  induction groups generalizing r with
  | nil => rfl
  | cons g gs ih =>
    simp only [visitGroups, visit_eq, ih, List.flatMap_cons, Register.place_append]

/-- The pass builds the map, and its register holds the nodes below the root. -/
theorem onePass_eq (t : Tolerances α) (container : Address) (layout : Layout α) :
    onePass t container layout =
      (build t container layout,
        Register.start.after (build t container layout).nodes.tail) := by
  rw [onePass, visitGroups_eq]
  rfl

theorem onePass_atoms (t : Tolerances α) (container : Address) (layout : Layout α) :
    (onePass t container layout).2.atoms = (build t container layout).atoms := by
  rw [onePass_eq, Register.atoms_after]
  rfl

theorem onePass_index (t : Tolerances α) (container : Address) (layout : Layout α) (a : Address) :
    (onePass t container layout).2.index a = (build t container layout).nodeOfElement? a := by
  rw [onePass_eq, Register.index_after, nodeOfElement?]
  exact Option.or_none

end SurfaceMap
end FormulaMap

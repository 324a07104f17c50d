/-
The text on the leaves of a map.

An action is aimed at a digit or an operator sign, so these are the characters that must
reach the map (`Text.isSymbol`).  The walk passes over some elements, cuts the text of
others, and trims what it keeps; but as long as text stands only where it can be seen, an
element that leaves no node has no symbols of its own, and a node that has others below
it shows nothing that they do not show.  So the leaves of a map, read in preorder, have
the symbols of its groups (`symbols_walk`), and these are read off the layout in document
order, each of them once, if no group lies in another.

Whether an element can be seen is asked of its box as the map has it, which is the box moved
by the corner of the container (`TextInMap`).  Exact boxes keep their size when they are
moved, so there it is enough that text stands on elements that are large themselves
(`TextInView`).  Floats are rounded, and a box that is larger than the bound by less than
that need not be so in the map (`faintPower`).
-/
import FormulaMap.Proofs.Geometry.Exact
import FormulaMap.Proofs.Surface.Glyphs
import FormulaMap.Proofs.Surface.Visits
import FormulaMap.Proofs.Surface.WellFormed

namespace FormulaMap

/-! ## Symbols of a text -/

namespace Text

/-- The digits `0` to `9` and the operator characters. -/
def isSymbol (c : Char) : Bool := isAsciiDigit c || isOperatorChar c

/-- The symbols of a text in order. -/
def symbols (cs : List Char) : List Char := cs.filter isSymbol

theorem symbols_append (cs ds : List Char) : symbols (cs ++ ds) = symbols cs ++ symbols ds :=
  List.filter_append cs ds

theorem not_isSymbol_of_isBlank {c : Char} (h : isBlank c = true) : isSymbol c = false := by
  refine Bool.eq_false_iff.2 fun hsymbol => ?_
  have hglyph : glyphChars.has c = true := by
    rw [isSymbol, Bool.or_eq_true] at hsymbol
    rcases hsymbol with hdigit | hoperator
    · exact glyphChars_of_isAsciiDigit hdigit
    · exact glyphChars_of_isOperatorChar hoperator
  rw [isBlank_of_glyphChars hglyph] at h
  exact Bool.false_ne_true h

theorem symbols_dropWhile_isBlank (cs : List Char) :
    symbols (cs.dropWhile isBlank) = symbols cs := by
  induction cs with
  | nil => rfl
  | cons c cs ih =>
    rw [List.dropWhile_cons]
    split
    · next hblank => rw [ih, symbols, symbols, List.filter_cons, not_isSymbol_of_isBlank hblank,
        if_neg Bool.false_ne_true]
    · rfl

theorem symbols_reverse (cs : List Char) : symbols cs.reverse = (symbols cs).reverse :=
  List.filter_reverse

theorem symbols_trimChars (cs : List Char) : symbols (trimChars cs) = symbols cs := by
  have hdrop : ∀ ds : List Char, symbols (ds.dropWhile blanks.has) = symbols ds :=
    symbols_dropWhile_isBlank
  rw [trimChars, trimOf, symbols_reverse, hdrop, symbols_reverse, List.reverse_reverse, hdrop]

end Text

open Text (symbols symbols_append)

/-! ## Symbols of segments -/

namespace Segment

theorem symbols_ofChar? {c : Char} (h : Text.isDigit c = false) :
    symbols ((ofChar? c).toList.flatMap fun s => s.text.toList) = symbols [c] := by
  have hascii : Text.isAsciiDigit c = false :=
    Bool.eq_false_iff.2 fun hdigit => by
      rw [Text.isDigit_of_isAsciiDigit hdigit] at h
      exact Bool.noConfusion h
  have hone : ∀ k : SegmentKind, (some (Segment.mk k (String.singleton c))).toList.flatMap
      (fun s => s.text.toList) = [c] := fun k => by
    rw [Option.toList_some, List.flatMap_singleton, String.toList_singleton]
  rw [ofChar?]
  split
  · rw [hone]
  · next hoperator =>
    split
    · rw [hone]
    · have hsymbol : Text.isSymbol c = false := by
        rw [Text.isSymbol, hascii, Bool.eq_false_iff.2 hoperator]
        rfl
      rw [symbols, symbols, List.filter_singleton, hsymbol]
      rfl

/-- What is skipped between segments is no symbol. -/
theorem symbols_scan (cs : List Char) :
    symbols ((scan cs).flatMap fun s => s.text.toList) = symbols cs := by
  induction cs using scan.induct with
  | case1 => rw [scan]; rfl
  | case2 c cs hdigit ih =>
    rw [scan, if_pos hdigit, List.flatMap_cons, symbols_append, ih, ← symbols_append,
      String.toList_ofList, List.cons_append, List.takeWhile_append_dropWhile]
  | case3 c cs hdigit ih =>
    rw [scan, if_neg hdigit, List.flatMap_append, symbols_append, ih,
      symbols_ofChar? (Bool.eq_false_iff.2 hdigit), ← symbols_append]
    rfl

end Segment

variable {α : Type}

/-! ## Text in a layout -/

namespace Layout

/-- The text of a list of layouts in document order. -/
def contentAll (ts : List (Layout α)) : List Char :=
  (Tree.preorderAll ts).flatMap fun e => e.text.toList

theorem content_node (e : Element α) (ts : List (Layout α)) :
    (content (.node e ts)).toList = e.text.toList ++ contentAll ts := by
  rw [content, String.toList_ofList, Tree.preorder, List.flatMap_cons, contentAll]

theorem contentAll_cons (t : Layout α) (ts : List (Layout α)) :
    contentAll (t :: ts) = t.content.toList ++ contentAll ts := by
  rw [contentAll, Tree.preorderAll, List.flatMap_append, content, String.toList_ofList, contentAll]

/-- What an element must be for text on it to be seen: without children, not there to
arrange others, and large enough, when its box is measured as `box`. -/
def InView [Coordinate α] (t : Tolerances α) (box : Box α) (l : Layout α) : Prop :=
  l.children = [] ∧ Category.isStructural l.value.classes = false ∧
    SurfaceMap.isVisible t box = true

instance [Coordinate α] (t : Tolerances α) (box : Box α) (l : Layout α) :
    Decidable (InView t box l) :=
  inferInstanceAs (Decidable (_ ∧ _ ∧ _))

/-- Text of its own stands only on elements where it is seen. -/
def TextInView [Coordinate α] (t : Tolerances α) (layout : Layout α) : Prop :=
  ∀ l ∈ layout.subtrees, l.value.text ≠ "" → InView t l.value.box l

/-- It is seen when the boxes are measured from the corner of the container, as the map has
them. -/
def TextInMap [Coordinate α] (t : Tolerances α) (layout : Layout α) : Prop :=
  ∀ l ∈ layout.subtrees, l.value.text ≠ "" →
    InView t (l.value.box.relativeTo layout.value.box) l

instance [Coordinate α] (t : Tolerances α) (layout : Layout α) : Decidable (TextInView t layout) :=
  inferInstanceAs (Decidable (∀ l ∈ layout.subtrees, l.value.text ≠ "" → _))

instance [Coordinate α] (t : Tolerances α) (layout : Layout α) : Decidable (TextInMap t layout) :=
  inferInstanceAs (Decidable (∀ l ∈ layout.subtrees, l.value.text ≠ "" → _))

/-- Over exact coordinates the size of a box does not depend on where it is seen from. -/
theorem isVisible_relativeTo (t : Tolerances Rat) (b origin : Box Rat) :
    SurfaceMap.isVisible t (b.relativeTo origin) = SurfaceMap.isVisible t b := by
  have hwidth : (b.relativeTo origin).width = b.width :=
    congrArg (Coordinate.larger 0) (sub_sub_sub_cancel_right b.right b.left origin.left)
  have hheight : (b.relativeTo origin).height = b.height :=
    congrArg (Coordinate.larger 0) (sub_sub_sub_cancel_right b.bottom b.top origin.top)
  rw [SurfaceMap.isVisible, hwidth, hheight, SurfaceMap.isVisible]

theorem textInMap_iff (t : Tolerances Rat) (layout : Layout Rat) :
    layout.TextInMap t ↔ layout.TextInView t := by
  simp only [TextInMap, TextInView, InView, isVisible_relativeTo]

end Layout

/-! ## Text on the leaves of drafts -/

namespace Draft

/-- The text on the leaves of a forest in preorder. -/
def leafText (ds : List (Tree (Draft α))) : List Char :=
  (Tree.leavesAll ds).flatMap fun d => d.text.toList

theorem leafText_append (ds es : List (Tree (Draft α))) :
    leafText (ds ++ es) = leafText ds ++ leafText es := by
  rw [leafText, Tree.leavesAll_append, List.flatMap_append, leafText, leafText]

/-- A node shows its own text if nothing is below it, and else what is below it. -/
theorem symbols_leafText_node {d : Draft α} {ds : List (Tree (Draft α))} {cs : List Char}
    (hown : symbols d.text.toList = cs) (hbelow : ds ≠ [] → symbols (leafText ds) = cs) :
    symbols (leafText [.node d ds]) = cs := by
  cases ds with
  | nil =>
    rw [leafText, Tree.leavesAll, Tree.leaves, Tree.leavesAll, List.append_nil,
      List.flatMap_singleton, hown]
  | cons u us =>
    rw [leafText, Tree.leavesAll, Tree.leaves, Tree.leavesAll, List.append_nil]
    exact hbelow (List.cons_ne_nil u us)

end Draft

open FormulaMap.Draft (leafText leafText_append)

namespace SurfaceMap

variable [Coordinate α]

theorem leafText_segmentDrafts (here : Address) (box : Box α) (text : List Char) :
    leafText (segmentDrafts here box text) =
      (Segment.scan text).flatMap fun s => s.text.toList := by
  have htexts := congrArg (List.flatMap String.toList) (texts_segmentDrafts here box text)
  rw [List.flatMap_map, List.flatMap_map] at htexts
  rw [leafText, segmentDrafts_eq, Tree.leavesAll_leafs, List.flatMap_map, htexts, List.flatMap_map]

mutual

/-- No symbol of an element is lost on the leaves of its drafts, and none is there twice. -/
theorem symbols_walk (t : Tolerances α) (origin : Box α) (here : Address) :
    ∀ l : Layout α, (∀ s ∈ l.subtrees, s.value.text ≠ "" →
      Layout.InView t (s.value.box.relativeTo origin) s) →
      symbols (leafText (walk t origin here l)) = symbols l.content.toList
  | .node e ts => by
    intro hview
    rw [Tree.subtrees] at hview
    have hbelow := symbols_walkAll t origin here 0 ts fun s hs =>
      hview s (List.mem_cons_of_mem _ hs)
    have hseen : e.text ≠ "" → Layout.InView t (e.box.relativeTo origin) (.node e ts) :=
      hview (.node e ts) List.mem_cons_self
    have hcontent := Layout.content_node e ts
    have htrim := Text.symbols_trimChars (Layout.content (.node e ts)).toList
    -- An element can be passed over if no symbol stands on it.
    have hover : symbols e.text.toList = [] →
        symbols (leafText (walkAll t origin here 0 ts)) =
          symbols (Layout.content (.node e ts)).toList := fun hnone => by
      rw [hbelow, hcontent, symbols_append, hnone, List.nil_append]
    have hunseen : ¬Layout.InView t (e.box.relativeTo origin) (.node e ts) →
        symbols e.text.toList = [] := fun hout => by
        rw [not_not.1 fun hne => hout (hseen hne)]
        rfl
    rw [walk.eq_def]
    dsimp only
    split
    · next hstructural =>
      exact hover (hunseen fun hin => Bool.noConfusion (hstructural.symm.trans hin.2.1))
    · split
      · cases ts with
        | nil => rw [leafText_segmentDrafts, Segment.symbols_scan, htrim]
        | cons u us => exact hover (hunseen fun hin => List.cons_ne_nil u us hin.1)
      · split
        · next hhidden =>
          rw [Bool.and_eq_true, Bool.or_eq_true, Bool.not_eq_true'] at hhidden
          rcases hhidden.2 with hempty | hsmall
          · rw [List.isEmpty_iff.1 hempty, hcontent, symbols_append] at htrim
            exact hover (List.append_eq_nil_iff.1 htrim.symm).1
          · exact hover (hunseen fun hin => Bool.noConfusion (hsmall.symm.trans hin.2.2))
        · refine Draft.symbols_leafText_node ?_ ?_
          · rw [String.toList_ofList, htrim]
          · intro hne
            refine hover (hunseen fun hin => ?_)
            rw [show ts = [] from hin.1, walkAll] at hne
            exact hne rfl

theorem symbols_walkAll (t : Tolerances α) (origin : Box α) (here : Address) (i : Nat) :
    ∀ ls : List (Layout α),
      (∀ s ∈ Tree.subtreesAll ls, s.value.text ≠ "" →
        Layout.InView t (s.value.box.relativeTo origin) s) →
        symbols (leafText (walkAll t origin here i ls)) = symbols (Layout.contentAll ls)
  | [] => by
    intro _
    rw [walkAll]
    rfl
  | l :: ls => by
    intro hview
    rw [Tree.subtreesAll] at hview
    rw [walkAll, leafText_append, symbols_append, Layout.contentAll_cons, symbols_append,
      symbols_walk t origin (here ++ [i]) l fun s hs => hview s (List.mem_append_left _ hs),
      symbols_walkAll t origin here (i + 1) ls fun s hs => hview s (List.mem_append_right _ hs)]

end

end SurfaceMap

/-! ## Text of the groups -/

namespace Layout

/-- The text of elements in turn. -/
def textOf (ps : List (Address × Layout α)) : List Char :=
  ps.flatMap fun p => p.2.value.text.toList

theorem textOf_places (here : Address) (l : Layout α) :
    textOf (l.places here) = l.content.toList := by
  rw [content, String.toList_ofList, ← Tree.map_value_subtrees, ← Tree.map_snd_places here,
    List.flatMap_map, List.flatMap_map, textOf]

theorem textOf_visits (container : Address) (layout : Layout α) :
    textOf (layout.visits container) =
      (layout.groups container).flatMap fun g => g.2.content.toList := by
  rw [textOf, visits, List.flatMap_assoc]
  exact List.flatMap_congr fun g _ => textOf_places g.1 g.2

variable {container : Address} {layout : Layout α}

theorem inView_of_mem_groups [Coordinate α] {t : Tolerances α} (h : layout.TextInMap t)
    {g : Address × Layout α} (hg : g ∈ layout.groups container) :
    ∀ s ∈ g.2.subtrees, s.value.text ≠ "" →
      InView t (s.value.box.relativeTo layout.value.box) s := by
  intro s hs
  obtain ⟨a, ha⟩ := (Tree.mem_subtrees_iff g.1).1 hs
  exact h s ((Tree.mem_subtrees_iff container).2
    ⟨a, (reachesBelow_of_mem_groups hg).reaches.trans ha⟩)

end Layout

namespace SurfaceMap

variable [Coordinate α]

theorem symbols_drafts {t : Tolerances α} {container : Address} {layout : Layout α}
    (h : layout.TextInMap t) :
    symbols (leafText (drafts t container layout)) =
      symbols (Layout.textOf (layout.visits container)) := by
  have hgroup : ∀ g ∈ layout.groups container,
      symbols (leafText (walk t layout.value.box g.1 g.2)) = symbols g.2.content.toList :=
    fun g hg => symbols_walk t layout.value.box g.1 g.2 (Layout.inView_of_mem_groups h hg)
  rw [Layout.textOf_visits, drafts]
  revert hgroup
  induction layout.groups container with
  | nil => exact fun _ => rfl
  | cons g gs ih =>
    intro hgroup
    rw [List.flatMap_cons, List.flatMap_cons, leafText_append, symbols_append, symbols_append,
      hgroup g List.mem_cons_self, ih fun f hf => hgroup f (List.mem_cons_of_mem g hf)]

/-- The leaves of a map show what the leaves of its drafts show. -/
theorem leafText_build (t : Tolerances α) (container : Address) (layout : Layout α) :
    ((build t container layout).root.leaves.flatMap fun n => n.text.toList) =
      leafText (drafts t container layout) := by
  have htexts : (Tree.leavesAll (Draft.placeAll [0] 1 (drafts t container layout))).map (·.text) =
      (Tree.leavesAll (drafts t container layout)).map (·.text) := by
    rw [← Tree.leavesAll_map, ← Tree.leavesAll_map,
      Draft.mapAll_placeAll (g := (·.text)) (fun d above k => rfl)]
  have hchars := congrArg (List.flatMap String.toList) htexts
  rw [List.flatMap_map, List.flatMap_map] at hchars
  rw [leafText, ← hchars]
  show (Tree.leaves (.node (rootNode layout.value.box container)
    (Draft.placeAll [0] 1 (drafts t container layout)))).flatMap _ = _
  cases drafts t container layout with
  | nil => rfl
  | cons d ds => rfl

/-- The leaves of the map in preorder show the symbols of the groups: those on the elements
that lie in groups, in document order and each of them once. -/
structure ShowsGroups (t : Tolerances α) (container : Address) (layout : Layout α) : Prop where
  symbols : symbols ((build t container layout).root.leaves.flatMap fun n => n.text.toList) =
    symbols ((layout.groups container).flatMap fun g => g.2.content.toList)
  once : ((layout.groups container).flatMap fun g => g.2.content.toList) =
    Layout.textOf ((layout.places container).filter fun p => layout.inGroup container p.1)

theorem showsGroups_build {t : Tolerances α} {container : Address} {layout : Layout α}
    (htext : layout.TextInMap t) (hapart : layout.GroupsApart container) :
    ShowsGroups t container layout where
  symbols := by rw [leafText_build, symbols_drafts htext, Layout.textOf_visits]
  once := by rw [← Layout.textOf_visits, Layout.visits_eq_filter hapart]

/-- If text stands only where it is seen in the map and no group lies in another, the map
shows the groups; and with exact coordinates it is enough that the text is seen. -/
theorem symbols_leaves_build :
    (∀ (α : Type) [Coordinate α] (t : Tolerances α) (container : Address) (layout : Layout α),
      layout.TextInMap t → layout.GroupsApart container → ShowsGroups t container layout) ∧
    ∀ (t : Tolerances Rat) (container : Address) (layout : Layout Rat),
      layout.TextInView t → layout.GroupsApart container → ShowsGroups t container layout :=
  ⟨fun _ _ _ _ _ htext hapart => showsGroups_build htext hapart,
    fun t _ layout htext hapart =>
      showsGroups_build ((Layout.textInMap_iff t layout).2 htext) hapart⟩

/-- `2×3+4` in one group, with the last three characters in one element and the sign before
them in one that only arranges it, and `=14` in another. -/
def twoGroups : Layout Rat :=
  let box : Box Rat := ⟨5, 5, 15, 15⟩
  .node ⟨["katex"], "", box, []⟩ [.node ⟨[formulaClass], "", box, []⟩
    [.node ⟨[groupClass], "", box, []⟩
      [.node ⟨["mord"], "2", box, []⟩ [],
       .node ⟨["vlist-t"], "", box, []⟩ [.node ⟨["mbin"], "×", box, []⟩ []],
       .node ⟨["mord"], "3+4", box, []⟩ []],
     .node ⟨[groupClass], "", box, []⟩
      [.node ⟨["mrel"], "=", box, []⟩ [], .node ⟨["mord"], "14", box, []⟩ []]]]

theorem symbols_twoGroups :
    symbols ((build .standard [] twoGroups).root.leaves.flatMap fun n => n.text.toList) =
      ['2', '×', '3', '+', '4', '1', '4'] := by
  have h := symbols_leaves_build.2 .standard [] twoGroups (by decide +kernel) (by decide +kernel)
  have hgroups : symbols ((twoGroups.groups []).flatMap fun g => g.2.content.toList) =
      ['2', '×', '3', '+', '4', '1', '4'] := by
    decide +kernel
  rw [h.symbols, hgroups]

/-- A power whose box is wider than half a pixel by less than moving it by a tenth rounds
off. -/
def faintPower : Layout Float :=
  let page : Box Float := ⟨0.1, 0.1, 9, 9⟩
  let faint : Box Float := ⟨0.6, 0.6, 1.1, 1.1⟩
  .node ⟨["katex"], "", page, []⟩ [.node ⟨[formulaClass], "", page, []⟩
    [.node ⟨[groupClass], "", faint, []⟩ [.node ⟨["mord"], "x1", faint, []⟩ []]]]

/-- Text on elements that are large enough themselves can be lost. -/
theorem not_forall_symbols_leaves : ¬ ∀ layout : Layout Float, layout.TextInView .standard →
    layout.GroupsApart [] → ShowsGroups .standard [] layout := by
  intro h
  have hview : faintPower.TextInView .standard := by decide +kernel
  have hapart : faintPower.GroupsApart [] := by decide +kernel
  have hlost : symbols ((build .standard [] faintPower).root.leaves.flatMap
      fun n => n.text.toList) ≠
        symbols ((faintPower.groups []).flatMap fun g => g.2.content.toList) := by
    decide +kernel
  exact hlost (h faintPower hview hapart).symbols

end SurfaceMap
end FormulaMap

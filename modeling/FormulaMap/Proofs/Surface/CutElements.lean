/-
Elements that are cut into segments.

An element with digits and operator signs in one text has no node of its own, and it must
still be found wherever it is clicked.  Each time the walk reaches it, it leaves one run of
atoms, one for each segment (`IsCut`); their boxes are columns of equal width that tile the
box of the element.  So a point in the element lies in one of them, and a click there finds
an atom (`segmented_build`).

What a node shares with its draft (`Piece`) is known from the drafts of the element, run by
run; the text is not lost on the way since a segment is never empty, and there is one, for
otherwise the text had no digit.
-/
import FormulaMap.Proofs.Geometry.Slices
import FormulaMap.Proofs.Surface.Clicks
import FormulaMap.Proofs.Surface.Contents
import FormulaMap.Proofs.Surface.WalkedOnce

namespace FormulaMap

open FormulaMap.Tree (Reaches)

variable {α β : Type}

/-- A list that reads as a word some times over consists of as many runs that read as it. -/
theorem exists_runs {f : α → β} {word : List β} {count : Nat} {xs : List α}
    (h : xs.map f = (List.replicate count word).flatten) :
    ∃ runs : List (List α), xs = runs.flatten ∧ runs.length = count ∧
      ∀ run ∈ runs, run.map f = word := by
  induction count generalizing xs with
  | zero => exact ⟨[], List.map_eq_nil_iff.1 h, rfl, List.forall_mem_nil _⟩
  | succ count ih =>
    rw [List.replicate_succ, List.flatten_cons, List.map_eq_append_iff] at h
    obtain ⟨run, rest, rfl, hrun, hrest⟩ := h
    obtain ⟨runs, rfl, hlength, hruns⟩ := ih hrest
    refine ⟨run :: runs, rfl, by rw [List.length_cons, hlength], ?_⟩
    rw [List.forall_mem_cons]
    exact ⟨hrun, hruns⟩

/-! ## Segments -/

namespace Segment

theorem not_isEmpty_of_mem_scan {cs : List Char} {s : Segment} (h : s ∈ scan cs) :
    s.text.isEmpty = false := by
  have hne : ∀ c ds, (String.ofList (c :: ds)).isEmpty = false := by
    intro c ds
    refine Bool.eq_false_iff.2 fun hempty => ?_
    have htext := congrArg String.toList (String.isEmpty_iff.1 hempty)
    rw [String.toList_ofList] at htext
    exact List.cons_ne_nil c ds htext
  induction cs using scan.induct with
  | case1 =>
    rw [scan] at h
    exact absurd h List.not_mem_nil
  | case2 c cs hdigit ih =>
    rw [scan, if_pos hdigit] at h
    rcases List.mem_cons.1 h with rfl | h
    · exact hne _ _
    · exact ih h
  | case3 c cs hdigit ih =>
    rw [scan, if_neg hdigit] at h
    rcases List.mem_append.1 h with h | h
    · rw [Option.mem_toList, ofChar?] at h
      split at h
      · cases h
        exact hne c []
      · split at h
        · cases h
          exact hne c []
        · exact absurd h.symm (Option.some_ne_none s)
    · exact ih h

/-- A digit is in some segment. -/
theorem scan_ne_nil {cs : List Char} (h : Category.hasDigit cs = true) : scan cs ≠ [] := by
  intro hnil
  have hsymbols := symbols_scan cs
  rw [hnil] at hsymbols
  obtain ⟨c, hc, hdigit⟩ := List.any_eq_true.1 h
  have hmem : c ∈ Text.symbols cs := List.mem_filter.2 ⟨hc, by rw [Text.isSymbol, hdigit]; rfl⟩
  rw [← hsymbols] at hmem
  exact absurd hmem List.not_mem_nil

theorem atomic_category (k : SegmentKind) : k.category.atomic = true := by
  cases k <;> rfl

end Segment

/-! ## Pieces -/

/-- What a node has of its draft. -/
structure Piece (α : Type) where
  kind : Kind
  box : Box α
  text : String
  source : Address
  synthetic : Bool
  atom : Bool

def Node.piece (n : Node α) : Piece α := ⟨n.kind, n.box, n.text, n.source, n.synthetic, n.atom⟩

def Draft.piece (d : Draft α) : Piece α :=
  ⟨d.category.kind, d.box, d.text, d.source, d.synthetic, d.isAtom⟩

namespace Segment

/-- The pieces that a text in a box is cut into. -/
def pieces [Coordinate α] (here : Address) (box : Box α) (text : List Char) : List (Piece α) :=
  (scan text).zipIdx.map fun p =>
    ⟨p.1.kind.category.kind, box.slice p.2 (scan text).length, p.1.text, here, true, true⟩

section
variable [Coordinate α] {here : Address} {box : Box α} {text : List Char}

theorem map_piece_segmentDrafts :
    ((SurfaceMap.segmentDrafts here box text).map Tree.value).map Draft.piece =
      pieces here box text := by
  rw [SurfaceMap.segmentDrafts, pieces, List.map_map, List.map_map]
  refine List.map_congr_left fun p hp => ?_
  have htext := not_isEmpty_of_mem_scan (List.fst_mem_of_mem_zipIdx hp)
  show Draft.piece ⟨p.1.kind.category, _, here, p.1.text, true⟩ = _
  simp [Draft.piece, Draft.isAtom, atomic_category, htext]

theorem map_text_pieces : (pieces here box text).map (·.text) = (scan text).map (·.text) := by
  rw [pieces, List.map_map]
  conv_rhs => rw [← List.zipIdx_map_fst 0 (scan text), List.map_map]
  rfl

theorem map_kind_pieces :
    (pieces here box text).map (·.kind) = (scan text).map fun s => s.kind.category.kind := by
  rw [pieces, List.map_map]
  conv_rhs => rw [← List.zipIdx_map_fst 0 (scan text), List.map_map]
  rfl

theorem map_box_pieces : (pieces here box text).map (·.box) =
    (List.range (scan text).length).map fun i => box.slice i (scan text).length := by
  rw [pieces, List.map_map, List.range_eq_range', ← List.zipIdx_map_snd 0 (scan text), List.map_map]
  rfl

theorem of_mem_pieces {p : Piece α} (h : p ∈ pieces here box text) :
    p.source = here ∧ p.synthetic = true ∧ p.atom = true := by
  obtain ⟨q, -, rfl⟩ := List.mem_map.1 h
  exact ⟨rfl, rfl, rfl⟩

end

end Segment

/-! ## Runs of atoms -/

namespace SurfaceMap

/-- The atoms that an element at an address is cut into: one for each segment of its text, in
order, side by side across its box. -/
structure IsCut (m : SurfaceMap Rat) (here : Address) (e : Element Rat) (run : List (Node Rat)) :
    Prop where
  atom : ∀ n ∈ run, n ∈ m.atoms ∧ n.source = here ∧ n.synthetic = true
  texts : run.map (·.text) = (Segment.ofString (Text.trim e.text)).map (·.text)
  kinds : run.map (·.kind) =
    (Segment.ofString (Text.trim e.text)).map fun s => s.kind.category.kind
  tiles : Box.Tiles (run.map (·.box)) (e.box.relativeTo m.origin)

variable {t : Tolerances Rat} {container a : Address} {layout : Layout Rat} {e : Element Rat}

/-- The walk drafts the segments of an element without children. -/
theorem map_piece_ownDrafts {origin : Box Rat} (hstructural : Category.isStructural e.classes = false)
    (hmixed : Category.isMixedContent (Text.trimChars e.text.toList) = true) :
    (ownDrafts t origin a (.node e [])).map Draft.piece =
      Segment.pieces a (e.box.relativeTo origin) (Text.trimChars e.text.toList) := by
  have hcontent : (Layout.content (.node e [])).toList = e.text.toList := by
    rw [Layout.content_node]
    exact List.append_nil _
  rw [ownDrafts, hcontent, if_neg (Bool.eq_false_iff.1 hstructural), if_pos hmixed]
  exact Segment.map_piece_segmentDrafts

/-- A run of nodes with the pieces of the text is a cut. -/
theorem isCut_of_pieces {m : SurfaceMap Rat} {run : List (Node Rat)}
    (hdigit : Category.hasDigit (Text.trimChars e.text.toList) = true)
    (hrun : run.map Node.piece =
      Segment.pieces a (e.box.relativeTo m.origin) (Text.trimChars e.text.toList))
    (hnodes : ∀ n ∈ run, n ∈ m.nodes) : m.IsCut a e run := by
  have hsegments : Segment.ofString (Text.trim e.text) =
      Segment.scan (Text.trimChars e.text.toList) := by
    rw [Segment.ofString, Text.trim, String.toList_ofList]
  have hmap : ∀ {γ : Type} (f : Piece Rat → γ), run.map (fun n => f n.piece) =
      (Segment.pieces a (e.box.relativeTo m.origin) (Text.trimChars e.text.toList)).map f := by
    intro γ f
    rw [← hrun, List.map_map]
    rfl
  refine ⟨fun n hn => ?_, ?_, ?_, ?_⟩
  · have hpiece : n.piece ∈ run.map Node.piece := List.mem_map_of_mem hn
    rw [hrun] at hpiece
    obtain ⟨hsource, hsynthetic, hatom⟩ := Segment.of_mem_pieces hpiece
    exact ⟨List.mem_filter.2 ⟨hnodes n hn, hatom⟩, hsource, hsynthetic⟩
  · rw [hsegments]
    exact (hmap (·.text)).trans Segment.map_text_pieces
  · rw [hsegments]
    exact (hmap (·.kind)).trans Segment.map_kind_pieces
  · have hcount : 0 < (Segment.scan (Text.trimChars e.text.toList)).length :=
      List.length_pos_iff.2 (Segment.scan_ne_nil hdigit)
    have hboxes := hmap (·.box)
    rw [Segment.map_box_pieces] at hboxes
    exact hboxes ▸ Box.tiles_slices _ hcount

/-- A click on a cut element finds an atom. -/
theorem exists_hit_of_isCut {m : SurfaceMap Rat} {run : List (Node Rat)} (hcut : m.IsCut a e run)
    (hslack : 0 ≤ t.operatorHit) {x y : Rat} (h : e.box.contains x y 0 = true) :
    ∃ n, m.hit? t x y = some n := by
  obtain ⟨c, hc, hin⟩ := (hcut.tiles.union _ _).1 (Box.contains_relativeTo m.origin h)
  obtain ⟨n, hn, rfl⟩ := List.mem_map.1 hc
  have hwide : 0 ≤ slack t n := by
    rw [slack]
    split
    · exact hslack
    · exact le_refl 0
  have hhit : m.Hit t x y n := hits_iff.1 (Box.contains_of_le hin hwide)
  refine Option.ne_none_iff_exists'.1 fun hnone => ?_
  exact hit?_eq_none_iff.1 hnone n (hcut.atom n hn).1 hhit

/-- An element without children whose text is cut leaves, each time that it is reached, one
atom for each segment, side by side across its box; and a click in the box finds an atom.  A
tolerance is never negative. -/
theorem segmented_build (t : Tolerances Rat) (hvisit : (a, .node e []) ∈ layout.visits container)
    (hstructural : Category.isStructural e.classes = false)
    (hmixed : Category.isMixedContent (Text.trimChars e.text.toList) = true) :
    let m := build t container layout
    (∃ runs : List (List (Node Rat)), m.madeFrom a = runs.flatten ∧
      runs.length = ((layout.visits container).filter fun p => p.1 == a).length ∧
        ∀ run ∈ runs, m.IsCut a e run) ∧
      ∀ (t' : Tolerances Rat) (x y : Rat), 0 ≤ t'.operatorHit → e.box.contains x y 0 = true →
        ∃ n ∈ m.atoms, m.hit? t' x y = some n := by
  intro m
  obtain ⟨g, hg, hplace⟩ := List.mem_flatMap.1 hvisit
  have hreaches : Reaches container layout a (.node e []) :=
    ((Layout.reachesBelow_of_mem_groups hg).trans ((Tree.mem_places g.1 g.2 _).1 hplace)).reaches
  have hvisits := Layout.filter_visits hreaches
  have hpieces := map_madeFrom (f := Node.piece) (g := Draft.piece) (fun _ _ _ => rfl) t hreaches
  rw [List.map_flatten, List.map_replicate, map_piece_ownDrafts hstructural hmixed] at hpieces
  obtain ⟨runs, hruns, hlength, hrun⟩ := exists_runs hpieces
  have hdigit : Category.hasDigit (Text.trimChars e.text.toList) = true := by
    rw [Category.isMixedContent, Bool.and_eq_true] at hmixed
    exact hmixed.1
  have hcut : ∀ run ∈ runs, m.IsCut a e run := by
    intro run hmem
    refine isCut_of_pieces hdigit (hrun run hmem) fun n hn => ?_
    have hmade : n ∈ m.madeFrom a := hruns ▸ List.mem_flatten_of_mem hmem hn
    exact List.mem_of_mem_tail (List.mem_filter.1 hmade).1
  refine ⟨⟨runs, hruns, ?_, hcut⟩, fun t' x y hslack hin => ?_⟩
  · rw [hlength, hvisits, List.length_replicate]
  · -- the walk reaches the element, so there is a run
    have hself : (a, .node e []) ∈ (layout.visits container).filter fun p => p.1 == a :=
      List.mem_filter.2 ⟨hvisit, beq_self_eq_true a⟩
    rw [hvisits] at hself
    cases runs with
    | nil =>
      rw [← hlength] at hself
      exact absurd hself List.not_mem_nil
    | cons run runs =>
      obtain ⟨n, hn⟩ := exists_hit_of_isCut (hcut run List.mem_cons_self) hslack hin
      exact ⟨n, (resolved_of_hit? (ancestral_build t container layout) hn).atom, hn⟩

/-- Twelve and three times x, in one element. -/
def sumInOne : Element Rat := ⟨["mord"], " 12+3x ", ⟨10, 5, 50, 15⟩, []⟩

def sumInOnePage : Layout Rat :=
  .node ⟨["katex"], "", ⟨0, 0, 100, 20⟩, []⟩ [.node ⟨[formulaClass], "", ⟨0, 0, 100, 20⟩, []⟩
    [.node ⟨[groupClass], "", ⟨0, 0, 100, 20⟩, []⟩ [.node sumInOne []]]]

/-- Four columns of width ten, found from the left side to the right one. -/
theorem sumInOne_segmented : ∃ run, (build .standard [] sumInOnePage).madeFrom [0, 0, 0] = run ∧
    (build .standard [] sumInOnePage).IsCut [0, 0, 0] sumInOne run ∧
      run.map (·.text) = ["12", "+", "3", "x"] ∧
        ∀ x, 10 ≤ x → x ≤ 50 → ∃ n, (build .standard [] sumInOnePage).hit? .standard x 10 = some n := by
  have hvisit : ([0, 0, 0], .node sumInOne []) ∈ sumInOnePage.visits [] :=
    List.mem_of_getElem? (i := 1) rfl
  have hsegmented := segmented_build .standard hvisit (by decide +kernel) (by decide +kernel)
  obtain ⟨⟨runs, hruns, hlength, hcut⟩, hhit⟩ := hsegmented
  have hone : ((sumInOnePage.visits []).filter fun p => p.1 == [0, 0, 0]).length = 1 := by
    decide +kernel
  obtain ⟨run, rfl⟩ := List.length_eq_one_iff.1 (hlength.trans hone)
  refine ⟨run, by simpa using hruns, hcut run List.mem_cons_self, ?_, fun x hleft hright => ?_⟩
  · rw [(hcut run List.mem_cons_self).texts]
    decide +kernel
  · have hin : sumInOne.box.contains x 10 0 = true := by
      rw [Box.contains_iff]
      exact ⟨⟨hleft, hright⟩, by decide +kernel, by decide +kernel⟩
    obtain ⟨n, -, hn⟩ := hhit .standard x 10 (by decide +kernel) hin
    exact ⟨n, hn⟩

end SurfaceMap
end FormulaMap

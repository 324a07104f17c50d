/-
Rows: one element for each token, side by side.

`Row` is the layout of a list of tokens on one line.  What is built from it is a spine
over a line (`Row.exists_spineOver`): the group of the formula leaves no node when digits
and operators are run together in it, and is one node above all glyphs otherwise.  Each
leaf is made from the element of its token and shows the token (`Row.Shown`).
-/
import FormulaMap.Proofs.Surface.Glyphs
import FormulaMap.Proofs.Surface.Spines

namespace FormulaMap

/-- A layout with one childless element for each token, in order and on one line. -/
structure Row (ts : List Token) where
  container : Element Rat
  formula : Element Rat
  base : Element Rat
  glyphs : List (Element Rat)
  formula_classes : formula.classes = [SurfaceMap.formulaClass]
  base_classes : base.classes = [SurfaceMap.groupClass]
  base_text : base.text = ""
  glyph_classes : ∀ g ∈ glyphs, g.classes = [Token.glyphClass]
  texts : glyphs.map (·.text) = ts.map (·.text)
  wide : ∀ g ∈ glyphs, g.box.left < g.box.right
  tall : ∀ g ∈ glyphs, g.box.top < g.box.bottom
  level : ∀ a ∈ glyphs, ∀ b ∈ glyphs, b.box.top = a.box.top ∧ b.box.bottom = a.box.bottom
  apart : glyphs.Pairwise fun a b => a.box.right ≤ b.box.left

namespace Row

open SurfaceMap Text

variable {ts : List Token}

def group (row : Row ts) : Layout Rat := .node row.base (row.glyphs.map fun g => .node g [])

def layout (row : Row ts) : Layout Rat := .node row.container [.node row.formula [row.group]]

/-- Where the glyphs are, the container being at an address. -/
def groupAddress (container : Address) : Address := container ++ [0] ++ [0]

/-! ## Selecting -/

theorem selectAmong_leafs {outer inner : String} {inside : Bool} {here : Address}
    {gs : List (Element Rat)} (h : ∀ g ∈ gs, g.hasClass inner = false) (i : Nat) :
    Layout.selectAmong outer inner inside here i (gs.map fun g => .node g []) = [] := by
  induction gs generalizing i with
  | nil => rfl
  | cons g gs ih =>
    have hg : (inside && g.hasClass inner) = false := by
      rw [h g List.mem_cons_self, Bool.and_false]
    rw [List.map_cons, Layout.selectAmong, ih (fun a ha => h a (List.mem_cons_of_mem g ha)),
      Layout.selectBelow, Layout.selectAmong]
    show (if (inside && g.hasClass inner) = true then _ else []) ++ [] ++ [] = []
    rw [hg]
    rfl

theorem select_layout (row : Row ts) (container : Address) :
    row.layout.select formulaClass groupClass container = [(groupAddress container, row.group)] := by
  have hformula : row.formula.hasClass formulaClass = true := by
    rw [Element.hasClass, row.formula_classes]
    decide
  have hinner : row.formula.hasClass groupClass = false := by
    rw [Element.hasClass, row.formula_classes]
    decide
  have hbase : row.base.hasClass groupClass = true := by
    rw [Element.hasClass, row.base_classes]
    decide
  have hglyphs : ∀ g ∈ row.glyphs, g.hasClass groupClass = false := by
    intro g hg
    rw [Element.hasClass, row.glyph_classes g hg]
    decide
  simp only [Layout.select, layout, group, Layout.selectBelow, Layout.selectAmong,
    selectAmong_leafs hglyphs, Tree.value, hinner, hformula, hbase, Bool.and_false, Bool.or_true,
    Bool.and_true, Bool.false_eq_true, if_false, if_true, List.nil_append, List.append_nil]
  rfl

/-! ## Walking -/

/-- What the walk makes of a glyph. -/
def draft (origin : Box Rat) (here : Address) (g : Element Rat) : Draft Rat where
  category := Category.of g.classes g.text
  box := g.box.relativeTo origin
  source := here
  text := g.text
  synthetic := false

theorem content_leaf (g : Element Rat) : Layout.content (.node g []) = g.text := by
  rw [Layout.content, Tree.preorder, Tree.preorderAll, List.flatMap_singleton, String.ofList_toList]

/-- An element that shows a glyph token. -/
def ShowsGlyph (g : Element Rat) : Prop :=
  g.classes = [Token.glyphClass] ∧ ∃ t : Token, t.isGlyph = true ∧ t.text = g.text

theorem category_ne_other {t : Token} (h : t.isGlyph = true) : t.category.kind ≠ .other := by
  rcases Token.kind_of_isGlyph h with hk | hk | hk | hk <;> rw [Token.category, hk] <;>
    exact Kind.noConfusion

theorem walk_glyph (t : Tolerances Rat) (origin : Box Rat) (here : Address) {g : Element Rat}
    (h : ShowsGlyph g) : walk t origin here (.node g []) = [.node (draft origin here g) []] := by
  obtain ⟨hclasses, u, hu, htext⟩ := h
  have htrim : trimChars g.text.toList = g.text.toList := htext ▸ Token.trimChars_of_isGlyph hu
  have hmixed : Category.isMixedContent g.text.toList = false :=
    htext ▸ Token.not_isMixedContent_of_isGlyph hu
  have hstructural : Category.isStructural g.classes = false := by
    rw [hclasses]
    decide
  have hkind : (Category.of g.classes g.text).kind ≠ .other := by
    rw [hclasses, ← htext, Token.category_of_isGlyph hu]
    exact category_ne_other hu
  rw [walk]
  dsimp only
  rw [content_leaf, htrim, hstructural, hmixed, String.ofList_toList, decide_eq_false hkind,
    walkAll, if_neg Bool.false_ne_true, if_neg Bool.false_ne_true, Bool.false_and,
    if_neg Bool.false_ne_true]
  rfl

theorem walkAll_glyphs (t : Tolerances Rat) (origin : Box Rat) (here : Address)
    {gs : List (Element Rat)} (h : ∀ g ∈ gs, ShowsGlyph g) (i : Nat) :
    walkAll t origin here i (gs.map fun g => .node g []) =
      ((gs.zipIdx i).map fun (g, j) => draft origin (here ++ [j]) g).map fun d => .node d [] := by
  induction gs generalizing i with
  | nil => rfl
  | cons g gs ih =>
    rw [List.map_cons, walkAll, walk_glyph t origin _ (h g List.mem_cons_self),
      ih (fun a ha => h a (List.mem_cons_of_mem g ha))]
    rfl

/-- The text of the whole row. -/
def chars (ts : List Token) : List Char := ts.flatMap (·.text.toList)

theorem content_group (row : Row ts) : row.group.content = String.ofList (chars ts) := by
  rw [Layout.content, group, Tree.preorder, Tree.preorderAll_leafs, List.flatMap_cons, row.base_text,
    String.toList_empty, List.nil_append]
  have hglyphs : row.glyphs.flatMap (fun g => g.text.toList) =
      (row.glyphs.map (·.text)).flatMap String.toList := by rw [List.flatMap_map]
  rw [hglyphs, row.texts, List.flatMap_map]
  rfl

theorem trimChars_chars (hts : ∀ t ∈ ts, t.isGlyph = true) : trimChars (chars ts) = chars ts := by
  refine trimChars_of_glyphChars fun c hc => ?_
  obtain ⟨t, ht, hct⟩ := List.mem_flatMap.1 hc
  exact Token.chars_of_isGlyph (hts t ht) c hct

theorem showsGlyph (row : Row ts) (hts : ∀ t ∈ ts, t.isGlyph = true) :
    ∀ g ∈ row.glyphs, ShowsGlyph g := by
  intro g hg
  have htext := List.mem_map_of_mem (f := fun g : Element Rat => g.text) hg
  rw [row.texts] at htext
  obtain ⟨t, ht, heq⟩ := List.mem_map.1 htext
  exact ⟨row.glyph_classes g hg, t, hts t ht, heq⟩

def drafts (row : Row ts) (container : Address) : List (Draft Rat) :=
  row.glyphs.zipIdx.map fun (g, i) =>
    draft row.container.box (groupAddress container ++ [i]) g

theorem kind_ite_ne {k : Kind} {p : Prop} [Decidable p] {c d : Category}
    (hc : c.kind ≠ k) (hd : d.kind ≠ k) : (if p then c else d).kind ≠ k := by
  split
  · exact hc
  · exact hd

/-- A text in which there are digits and no operator is cut nowhere, and is no bar. -/
theorem kind_of_group_ne (text : String) : (Category.of [groupClass] text).kind ≠ .fracBar := by
  have hbar : [groupClass].contains "frac-line" = false := by decide
  unfold Category.of
  dsimp only
  rw [hbar]
  simp only [Bool.false_eq_true, if_false]
  repeat refine kind_ite_ne Kind.noConfusion ?_
  exact Kind.noConfusion

theorem hasDigit_chars {t : Token} (ht : t ∈ ts) (hglyph : t.isGlyph = true)
    (hk : t.kind = .number) : Category.hasDigit (chars ts) = true := by
  obtain ⟨c, hc, hdigit⟩ := Token.exists_digit_of_number hglyph hk
  exact List.any_eq_true.2 ⟨c, List.mem_flatMap.2 ⟨t, ht, hc⟩, hdigit⟩

/-- The group leaves no node, or one node that is no bar, and then there is no operator. -/
theorem walk_group (row : Row ts) (hts : ∀ t ∈ ts, t.isGlyph = true)
    (hnumber : ∃ t ∈ ts, t.kind = .number) (t : Tolerances Rat) (container : Address) :
    walk t row.container.box (groupAddress container) row.group =
        (row.drafts container).map (fun d => .node d []) ∨
      ∃ b : Draft Rat, walk t row.container.box (groupAddress container) row.group =
          [.node b ((row.drafts container).map fun d => .node d [])] ∧
        b.category.kind ≠ .fracBar ∧ b.text = String.ofList (chars ts) ∧
        Category.hasOperatorChar (chars ts) = false := by
  have hwalk := walkAll_glyphs t row.container.box (groupAddress container) (row.showsGlyph hts) 0
  have hstructural : Category.isStructural row.base.classes = false := by
    rw [row.base_classes]
    decide
  have hdigit : Category.hasDigit (chars ts) = true := by
    obtain ⟨u, hu, hk⟩ := hnumber
    exact hasDigit_chars hu (hts u hu) hk
  have htext : trimChars row.group.content.toList = chars ts := by
    rw [content_group, String.toList_ofList, trimChars_chars hts]
  rw [group] at htext ⊢
  rw [walk.eq_def]
  dsimp only
  rw [htext, hstructural, if_neg Bool.false_ne_true, Category.isMixedContent, hdigit, Bool.true_and]
  cases hoperator : Category.hasOperatorChar (chars ts) with
  | true =>
    left
    rw [if_pos rfl]
    split
    · next hnil =>
      have hempty := row.texts
      rw [List.map_eq_nil_iff.1 hnil, List.map_nil, eq_comm, List.map_eq_nil_iff] at hempty
      obtain ⟨u, hu, -⟩ := hnumber
      rw [hempty] at hu
      exact absurd hu List.not_mem_nil
    · next u us hcons => exact hcons ▸ hwalk
  | false =>
    rw [if_neg Bool.false_ne_true, hwalk]
    split
    · exact Or.inl rfl
    · refine Or.inr ⟨_, rfl, ?_, rfl, rfl⟩
      rw [row.base_classes]
      exact kind_of_group_ne _

/-! ## Building -/

/-- The nodes of drafts side by side, numbered from `k` on. -/
def placed (above : List Nat) (k : Nat) (ds : List (Draft Rat)) : List (Node Rat) :=
  (ds.zipIdx k).map fun (d, j) => d.node above j

theorem placeAll_leafs (above : List Nat) (k : Nat) (ds : List (Draft Rat)) :
    Draft.placeAll above k (ds.map fun d => .node d []) =
      (placed above k ds).map fun n => .node n [] := by
  induction ds generalizing k with
  | nil => rfl
  | cons d ds ih =>
    rw [List.map_cons, Draft.placeAll, ih]
    rfl

/-- What does not depend on the place of a node is known from its draft. -/
theorem map_placed {β : Type} {f : Node Rat → β} {g : Draft Rat → β}
    (h : ∀ d above j, f (d.node above j) = g d) (above : List Nat) (k : Nat)
    (ds : List (Draft Rat)) : (placed above k ds).map f = ds.map g := by
  induction ds generalizing k with
  | nil => rfl
  | cons d ds ih =>
    rw [placed, List.zipIdx_cons, List.map_cons, ← placed, List.map_cons, List.map_cons, h, ih]

theorem exists_of_mem_placed {above : List Nat} {k : Nat} {ds : List (Draft Rat)} {n : Node Rat}
    (hn : n ∈ placed above k ds) : ∃ d ∈ ds, ∃ j, k ≤ j ∧ n = d.node above j := by
  obtain ⟨⟨d, j⟩, hmem, rfl⟩ := List.mem_map.1 hn
  exact ⟨d, List.fst_mem_of_mem_zipIdx hmem, j, List.le_snd_of_mem_zipIdx hmem, rfl⟩

section
variable (row : Row ts) (container : Address) (above : List Nat) (k : Nat)

theorem length_glyphs : row.glyphs.length = ts.length := by
  simpa using congrArg List.length row.texts

/-- What does not depend on where the glyph is in the layout is known from the glyph. -/
theorem map_drafts {β : Type} {f : Draft Rat → β} {g : Element Rat → β}
    (h : ∀ here e, f (draft row.container.box here e) = g e) :
    (row.drafts container).map f = row.glyphs.map g := by
  rw [drafts, List.map_map, ← List.zipIdx_map_fst 0 row.glyphs, List.map_map,
    List.zipIdx_map_fst]
  exact List.map_congr_left fun x _ => h _ _

theorem sources_placed :
    (placed above k (row.drafts container)).map (·.source) =
      (List.range ts.length).map fun i => groupAddress container ++ [i] := by
  rw [map_placed (g := Draft.source) (fun _ _ _ => rfl), drafts, List.map_map, ← row.length_glyphs,
    List.range_eq_range', ← List.zipIdx_map_snd 0 row.glyphs, List.map_map]
  rfl

theorem boxes_placed :
    (placed above k (row.drafts container)).map (·.box) =
      row.glyphs.map fun g => g.box.relativeTo row.container.box :=
  (map_placed (fun _ _ _ => rfl) above k _).trans (row.map_drafts container fun _ _ => rfl)

/-- What is seen of a node with this text that is made from a glyph. -/
def glyphFace (text : String) : Node.Face :=
  let c := Category.of [Token.glyphClass] text
  ⟨text, c.kind, (c.atomic || c.kind.isAtomic) && (c.kind = .fracBar || !text.isEmpty), .none⟩

theorem glyphFace_text {t : Token} (h : t.isGlyph = true) :
    glyphFace t.text = t.face t.category.kind := by
  rw [glyphFace, Token.category_of_isGlyph h, Token.atomic_category h, Token.not_isEmpty h,
    Bool.not_false, Bool.or_true]
  rfl

/-- What is seen of the nodes is what their tokens say. -/
theorem faces_placed (hts : ∀ t ∈ ts, t.isGlyph = true) :
    (placed above k (row.drafts container)).map Node.face =
      ts.map fun t => t.face t.category.kind := by
  let seen (g : Element Rat) : Node.Face :=
    ((draft row.container.box [] g).node [] 0).face
  have hseen : ∀ g ∈ row.glyphs, seen g = glyphFace g.text := by
    intro g hg
    show (⟨g.text, _, Draft.isAtom _, _⟩ : Node.Face) = _
    rw [Draft.isAtom, draft, row.glyph_classes g hg]
    rfl
  calc (placed above k (row.drafts container)).map Node.face
    _ = row.glyphs.map seen :=
      (map_placed (g := fun d => (d.node [] 0).face) (fun _ _ _ => rfl) above k _).trans
        (row.map_drafts container fun _ _ => rfl)
    _ = (row.glyphs.map (·.text)).map glyphFace := by
      rw [List.map_map]
      exact List.map_congr_left hseen
    _ = ts.map fun t => t.face t.category.kind := by
      rw [row.texts, List.map_map]
      exact List.map_congr_left fun t ht => glyphFace_text (hts t ht)

/-- Side by side, the nodes are a line when none is numbered like one above them. -/
theorem line_placed (h : ∀ j ∈ above, j < k) : Line (placed above k (row.drafts container)) := by
  have hboxes := row.boxes_placed container above k
  have hbox : ∀ n ∈ placed above k (row.drafts container),
      ∃ g ∈ row.glyphs, n.box = g.box.relativeTo row.container.box := by
    intro n hn
    have hmem := List.mem_map_of_mem (f := fun n : Node Rat => n.box) hn
    rw [hboxes] at hmem
    obtain ⟨g, hg, heq⟩ := List.mem_map.1 hmem
    exact ⟨g, hg, heq.symm⟩
  refine ⟨?_, ?_, ?_, ?_, ?_⟩
  · intro n hn
    obtain ⟨g, hg, heq⟩ := hbox n hn
    rw [heq]
    exact sub_lt_sub_right (row.wide g hg) _
  · intro n hn
    obtain ⟨g, hg, heq⟩ := hbox n hn
    rw [heq]
    exact sub_lt_sub_right (row.tall g hg) _
  · intro a ha b hb
    obtain ⟨g, hg, hga⟩ := hbox a ha
    obtain ⟨g', hg', hgb⟩ := hbox b hb
    obtain ⟨htop, hbottom⟩ := row.level g hg g' hg'
    rw [hga, hgb]
    exact ⟨congrArg (· - _) htop, congrArg (· - _) hbottom⟩
  · have hapart : ((placed above k (row.drafts container)).map (·.box)).Pairwise
        fun a b => a.right ≤ b.left := by
      rw [hboxes, List.pairwise_map]
      exact row.apart.imp fun hab => sub_le_sub_right hab _
    exact List.pairwise_map.1 hapart
  · intro a ha b hb
    obtain ⟨d, -, i, hi, rfl⟩ := exists_of_mem_placed ha
    obtain ⟨d', -, j, hj, rfl⟩ := exists_of_mem_placed hb
    have hnot : ∀ {i : Nat}, k ≤ i → above.contains i = false := fun hi =>
      Bool.eq_false_iff.2 fun hmem => absurd (h _ (List.contains_iff_mem.1 hmem)) (not_lt.2 hi)
    show (above.contains i || above.contains j) = false
    rw [hnot hi, hnot hj]
    rfl

end

/-! ## The map of a row -/

/-- What the tokens of a row are made into: their nodes side by side, in order. -/
structure Shown (ts : List Token) (container : Address) (ns : List (Node Rat)) : Prop where
  faces : ns.map Node.face = ts.map fun t => t.face t.category.kind
  sources : ns.map (·.source) =
    (List.range ts.length).map fun i => groupAddress container ++ [i]

theorem isMinusGlyph_of_no_operator {cs : List Char} (h : Category.hasOperatorChar cs = false) :
    isMinusGlyph (String.ofList cs) = false := by
  refine Bool.eq_false_iff.2 fun hminus => ?_
  have htext : String.ofList cs = "-" ∨ String.ofList cs = "−" := by
    simpa [isMinusGlyph] using hminus
  have hlist : ∀ {s : String}, String.ofList cs = s → cs = s.toList :=
    fun hs => hs ▸ String.toList_ofList.symm
  rcases htext with htext | htext <;> rw [hlist htext] at h <;> exact absurd h (by decide)

theorem not_minus_of_no_operator (hts : ∀ t ∈ ts, t.isGlyph = true)
    (h : Category.hasOperatorChar (chars ts) = false) {t : Token} (ht : t ∈ ts) :
    isMinusGlyph (String.ofList (trimChars t.text.toList)) = false := by
  rw [Token.trimChars_of_isGlyph (hts t ht)]
  refine isMinusGlyph_of_no_operator (List.any_eq_false.2 fun c hc => ?_)
  exact List.any_eq_false.1 h c (List.mem_flatMap.2 ⟨t, ht, hc⟩)

section
variable {container : Address} {ns : List (Node Rat)}

theorem Shown.exists_token (h : Shown ts container ns) {n : Node Rat} (hn : n ∈ ns) :
    ∃ t ∈ ts, n.face = t.face t.category.kind := by
  have hmem := List.mem_map_of_mem (f := Node.face) hn
  rw [h.faces] at hmem
  obtain ⟨t, ht, heq⟩ := List.mem_map.1 hmem
  exact ⟨t, ht, heq.symm⟩

theorem Shown.atom (h : Shown ts container ns) {n : Node Rat} (hn : n ∈ ns) : n.atom = true := by
  obtain ⟨t, -, hface⟩ := h.exists_token hn
  exact congrArg Node.Face.atom hface

theorem Shown.kind_ne (h : Shown ts container ns) {n : Node Rat} (hn : n ∈ ns) :
    n.kind ≠ .fracBar := by
  obtain ⟨t, -, hface⟩ := h.exists_token hn
  have hkind : n.kind = t.category.kind := congrArg Node.Face.kind hface
  rw [hkind, Token.category]
  split <;> exact Kind.noConfusion

theorem Shown.not_minus (h : Shown ts container ns) (hts : ∀ t ∈ ts, t.isGlyph = true)
    (hnone : Category.hasOperatorChar (chars ts) = false) {n : Node Rat} (hn : n ∈ ns) :
    isMinusGlyph (String.ofList n.glyphs) = false := by
  obtain ⟨t, ht, hface⟩ := h.exists_token hn
  have htext : n.text = t.text := congrArg Node.Face.text hface
  rw [Node.glyphs, htext]
  exact not_minus_of_no_operator hts hnone ht

end

theorem root_build (row : Row ts) (t : Tolerances Rat) (container : Address) :
    (build t container row.layout).root =
      .node (rootNode row.container.box container)
        (Draft.placeAll [0] 1
          (walk t row.container.box (groupAddress container) row.group)) := by
  unfold build
  dsimp only
  rw [select_layout, List.flatMap_singleton]
  rfl

/-- A spine below the root of a map, whose leaves show the tokens. -/
theorem Shown.spineOver {container : Address} {ns : List (Node Rat)} (h : Shown ts container ns)
    {m : SurfaceMap Rat} (hm : Placed m.root) {origin : Box Rat} {w : Option (Node Rat)}
    (hroot : m.root = spine (rootNode origin container) w ns) (hline : Line ns)
    (hbar : ∀ b ∈ w, b.kind ≠ .fracBar)
    (hminus : ∀ b ∈ w, ∀ n ∈ b :: ns, isMinusGlyph (String.ofList n.glyphs) = false) :
    SpineOver (rootNode origin container) w ns m where
  placed := hm
  root := hroot
  line := hline
  atoms := fun _ hn => h.atom hn
  rootAtom := rfl
  noBar := by
    intro n hn
    rcases List.mem_cons.1 hn with rfl | hn
    · exact Kind.noConfusion
    · rcases List.mem_append.1 hn with hn | hn
      · exact hbar n (Option.mem_toList.1 hn)
      · exact h.kind_ne hn
  noMinus := hminus

/-- What is built from a row is a spine over a line. -/
theorem exists_spineOver (row : Row ts) (hts : ∀ t ∈ ts, t.isGlyph = true)
    (hnumber : ∃ t ∈ ts, t.kind = .number) (t : Tolerances Rat) (container : Address) :
    ∃ r w ns, SpineOver r w ns (build t container row.layout) ∧ Shown ts container ns := by
  have hroot := row.root_build t container
  have hplaced := placed_build t container row.layout
  have hshown := fun above k => Shown.mk (row.faces_placed container above k hts)
    (row.sources_placed container above k)
  rcases row.walk_group hts hnumber t container with hwalk | ⟨b, hwalk, hkind, htext, hnone⟩
  · rw [hwalk, placeAll_leafs] at hroot
    refine ⟨_, none, _, (hshown [0] 1).spineOver hplaced hroot ?_ ?_ ?_, hshown [0] 1⟩
    · exact row.line_placed container [0] 1 (by decide)
    · exact fun _ h => absurd h (Option.not_mem_none _)
    · exact fun _ h => absurd h (Option.not_mem_none _)
  · rw [hwalk, Draft.placeAll, Draft.placeAll, Draft.place, placeAll_leafs] at hroot
    refine ⟨_, some (b.node [0] 1), _, (hshown [1, 0] 2).spineOver hplaced hroot ?_ ?_ ?_,
      hshown [1, 0] 2⟩
    · exact row.line_placed container [1, 0] 2 (by decide)
    · intro c hc
      obtain rfl := Option.some.inj hc
      exact hkind
    · intro c hc n hn
      obtain rfl := Option.some.inj hc
      rcases List.mem_cons.1 hn with rfl | hn
      · have hchars : (b.node [0] 1).glyphs = chars ts := by
          show trimChars b.text.toList = chars ts
          rw [htext, String.toList_ofList, trimChars_chars hts]
        rw [hchars]
        exact isMinusGlyph_of_no_operator hnone
      · exact (hshown [1, 0] 2).not_minus hts hnone hn

end Row
end FormulaMap

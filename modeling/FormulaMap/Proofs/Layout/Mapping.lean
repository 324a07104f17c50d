/-
Layouts whose elements are changed.

A value of a tree can be changed at an address, and then every other address leads to
the value that was there before (`value_at?_modifyAt`).  Building looks at the classes,
the text and the box of an element, and at the box only relative to that of the
container.  A change that keeps these (`walk_map`), such as one of the data attributes
alone (`build_of_bare`), leaves the map as it is.
-/
import FormulaMap.Surface.Build

namespace FormulaMap

variable {α : Type}

namespace Tree

variable {β : Type}

theorem children_map (f : α → β) (t : Tree α) :
    (t.map f).children = t.children.map (Tree.map f) := by
  cases t with
  | node a ts => exact mapAll_eq f ts

theorem preorder_subset_preorderAll {ts : List (Tree α)} {t : Tree α} (h : t ∈ ts) :
    t.preorder ⊆ preorderAll ts := by
  induction ts with
  | nil => exact absurd h List.not_mem_nil
  | cons u us ih =>
    rw [preorderAll]
    rcases List.mem_cons.1 h with rfl | h
    · exact List.subset_append_left _ _
    · exact fun x hx => List.mem_append_right _ (ih h hx)

theorem at?_map (f : α → β) (t : Tree α) (a : Address) :
    (t.map f).at? a = (t.at? a).map (Tree.map f) := by
  induction a generalizing t with
  | nil => rfl
  | cons i rest ih =>
    rw [at?, at?, children_map, List.getElem?_map]
    cases t.children[i]? with
    | none => rfl
    | some c => exact ih c

theorem value_mem_of_at? {t s : Tree α} {a : Address} (h : t.at? a = some s) :
    s.value ∈ t.preorder := by
  induction a generalizing t with
  | nil =>
    obtain rfl := Option.some.inj h
    cases t
    exact List.mem_cons_self
  | cons i rest ih =>
    cases t with
    | node x ts =>
      obtain ⟨c, hc, hs⟩ := Option.bind_eq_some_iff.1 h
      exact List.mem_cons_of_mem x (preorder_subset_preorderAll (List.mem_of_getElem? hc) (ih hs))

theorem modify_map {f : α → β} {g : α → α} {ts : List α} {i : Nat}
    (h : ∀ t, ts[i]? = some t → f (g t) = f t) : (ts.modify i g).map f = ts.map f := by
  refine List.ext_getElem? fun j => ?_
  rw [List.getElem?_map, List.getElem?_map, List.getElem?_modify]
  cases htj : ts[j]? with
  | none => rfl
  | some t =>
    show some (f (if i = j then g t else t)) = some (f t)
    by_cases hj : i = j
    · rw [hj] at h
      rw [if_pos hj, h t htj]
    · rw [if_neg hj]

theorem map_modifyAt {f : α → β} {g : α → α} (h : ∀ x, f (g x) = f x) (t : Tree α)
    (a : Address) : (t.modifyAt g a).map f = t.map f := by
  induction a generalizing t with
  | nil =>
    cases t with
    | node x ts =>
      rw [modifyAt, map, map]
      exact congrArg (node · _) (h x)
  | cons i rest ih =>
    cases t with
    | node x ts =>
      rw [modifyAt, map, map, mapAll_eq, mapAll_eq]
      exact congrArg (node (f x)) (modify_map fun c _ => ih c)

/-- Every other address leads to the value that was there before. -/
theorem value_at?_modifyAt (g : α → α) (t : Tree α) (a b : Address) :
    ((t.modifyAt g a).at? b).map value =
      (t.at? b).map fun s => if a = b then g s.value else s.value := by
  induction a generalizing t b with
  | nil =>
    cases b with
    | nil => rfl
    | cons j b =>
      rw [modifyAt, at?, at?]
      rfl
  | cons i a ih =>
    cases b with
    | nil => rfl
    | cons j b =>
      rw [modifyAt, at?, at?]
      show (((t.children.modify i fun c => c.modifyAt g a)[j]?).bind fun c => c.at? b).map value = _
      rw [List.getElem?_modify]
      cases t.children[j]? with
      | none => rfl
      | some c =>
        show ((if i = j then c.modifyAt g a else c).at? b).map value =
          (c.at? b).map fun s => if i :: a = j :: b then g s.value else s.value
        by_cases hij : i = j
        · rw [if_pos hij, ih]
          simp only [hij, List.cons.injEq, true_and]
        · rw [if_neg hij]
          simp only [hij, List.cons.injEq, false_and, if_false]

end Tree

/-- The change leaves the classes and the text of every element. -/
structure Element.SameContent (f : Element α → Element α) : Prop where
  classes : ∀ e, (f e).classes = e.classes
  text : ∀ e, (f e).text = e.text

namespace Layout

variable {f : Element α → Element α}

theorem content_map (hf : Element.SameContent f) (l : Layout α) :
    Layout.content (l.map f) = l.content := by
  rw [content, content, Tree.preorder_map, List.flatMap_map]
  simp only [hf.text]

theorem hasClass_map (hf : Element.SameContent f) (l : Layout α) (name : String) :
    (l.map f).value.hasClass name = l.value.hasClass name := by
  cases l with
  | node e ts => exact congrArg (List.contains · name) (hf.classes e)

mutual

theorem selectBelow_map (hf : Element.SameContent f) (outer inner : String) (inside : Bool)
    (here : Address) : ∀ l : Layout α, selectBelow outer inner inside here (l.map f) =
      (selectBelow outer inner inside here l).map fun p => (p.1, p.2.map f)
  | .node e ts => by
    have hclass : (f e).hasClass outer = e.hasClass outer :=
      congrArg (List.contains · outer) (hf.classes e)
    rw [Tree.map, selectBelow, selectBelow, hclass]
    exact selectAmong_map hf outer inner _ here 0 ts

theorem selectAmong_map (hf : Element.SameContent f) (outer inner : String) (inside : Bool)
    (here : Address) (i : Nat) :
    ∀ ts : List (Layout α), selectAmong outer inner inside here i (Tree.mapAll f ts) =
      (selectAmong outer inner inside here i ts).map fun p => (p.1, p.2.map f)
  | [] => by
    rw [Tree.mapAll, selectAmong, List.map_nil]
  | t :: ts => by
    rw [Tree.mapAll, selectAmong, selectAmong, hasClass_map hf, selectBelow_map hf outer inner
      inside _ t, selectAmong_map hf outer inner inside here (i + 1) ts, List.map_append,
      List.map_append]
    split
    · rfl
    · rfl

end

theorem select_map (hf : Element.SameContent f) (outer inner : String) (here : Address)
    (l : Layout α) : select outer inner here (l.map f) =
      (select outer inner here l).map fun p => (p.1, p.2.map f) :=
  selectBelow_map hf outer inner false here l

end Layout

namespace SurfaceMap

variable [Coordinate α] {f : Element α → Element α} {origin origin' : Box α}

mutual

/-- What is drawn depends on boxes only as they are seen from the origin. -/
theorem walk_map (hf : Element.SameContent f)
    (hbox : ∀ e, (f e).box.relativeTo origin' = e.box.relativeTo origin) (t : Tolerances α)
    (here : Address) : ∀ l : Layout α, walk t origin' here (l.map f) = walk t origin here l
  | .node e ts => by
    have hall := walkAll_map hf hbox t here 0 ts
    have hcontent := Layout.content_map hf (.node e ts)
    rw [Tree.map] at hcontent ⊢
    rw [walk.eq_def, walk.eq_def t origin]
    dsimp only
    rw [hcontent, hf.classes, hbox, hall]
    cases ts with
    | nil => rfl
    | cons u us => rfl

theorem walkAll_map (hf : Element.SameContent f)
    (hbox : ∀ e, (f e).box.relativeTo origin' = e.box.relativeTo origin) (t : Tolerances α)
    (here : Address) (i : Nat) : ∀ ls : List (Layout α),
      walkAll t origin' here i (Tree.mapAll f ls) = walkAll t origin here i ls
  | [] => by
    rw [Tree.mapAll, walkAll, walkAll]
  | l :: ls => by
    rw [Tree.mapAll, walkAll, walkAll, walk_map hf hbox t (here ++ [i]) l,
      walkAll_map hf hbox t here (i + 1) ls]

end

theorem drafts_map (hf : Element.SameContent f)
    (hbox : ∀ e, (f e).box.relativeTo origin' = e.box.relativeTo origin) (t : Tolerances α)
    (container : Address) (layout : Layout α) :
    (Layout.select formulaClass groupClass container (layout.map f)).flatMap
        (fun p => walk t origin' p.1 p.2) =
      (layout.select formulaClass groupClass container).flatMap
        fun p => walk t origin p.1 p.2 := by
  rw [Layout.select_map hf, List.flatMap_map]
  simp only [walk_map hf hbox]

/-- A change that also keeps the boxes leaves the map as it is. -/
theorem build_map (hf : Element.SameContent f) (hbox : ∀ e, (f e).box = e.box)
    (t : Tolerances α) (container : Address) (layout : Layout α) :
    build t container (layout.map f) = build t container layout := by
  have horigin : (layout.map f).value.box = layout.value.box := by
    cases layout with
    | node e ts => exact hbox e
  have hrelative : ∀ e, (f e).box.relativeTo layout.value.box =
      e.box.relativeTo layout.value.box := fun e => by rw [hbox]
  have hdrafts := drafts_map hf hrelative t container layout
  unfold build
  rw [horigin]
  exact congrArg (fun drafts => (⟨.node (rootNode layout.value.box container)
    (Draft.placeAll [0] 1 drafts), layout.value.box, container⟩ : SurfaceMap α)) hdrafts

end SurfaceMap

/-! ## Data attributes -/

/-- The element without its data attributes. -/
def Element.bare (e : Element α) : Element α := { e with data := [] }

theorem Element.sameContent_bare : Element.SameContent (Element.bare (α := α)) :=
  ⟨fun _ => rfl, fun _ => rfl⟩

def Layout.bare (l : Layout α) : Layout α := l.map Element.bare

/-- Layouts that differ in data attributes alone have the same map. -/
theorem SurfaceMap.build_of_bare [Coordinate α] {l l' : Layout α} (h : l'.bare = l.bare)
    (t : Tolerances α) (container : Address) : build t container l' = build t container l := by
  rw [← build_map Element.sameContent_bare (fun _ => rfl) t container l',
    ← build_map Element.sameContent_bare (fun _ => rfl) t container l]
  exact congrArg (build t container) h

end FormulaMap

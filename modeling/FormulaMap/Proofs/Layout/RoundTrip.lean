/-
Pages are read back from their snapshots.

A field that is left out when it is empty is empty when it is left out, so the fields that are
written for an element describe it.  The boxes have to be the right way round, and those of a
layout that was read are.  A snapshot tells nothing about parents: whatever they were on the
page that was written, what is read is built anew, with every child added to the element that
holds it.
-/
import FormulaMap.Proofs.Layout.Pages
import FormulaMap.Proofs.Layout.Snapshots

namespace FormulaMap

namespace Fields

variable {β : Type}

/-- A field that is left out under a condition. -/
theorem get?_unless (key name : String) (v : β) (c : Bool) :
    get? key (if c then [] else [(name, v)]) = if !c && name == key then some v else none := by
  cases c with
  | true => rfl
  | false => exact get?_cons key name v []

end Fields

namespace Layout

variable {e : Element Float} {t : Layout Float} {ts : List (Layout Float)}

/-- The children as a field, which is left out when there are none. -/
def childrenField (ts : List (Layout Float)) : Fields Json :=
  if ts.isEmpty then [] else [("children", .arr (ts.map toJson))]

theorem toJsonAll_eq (ts : List (Layout Float)) : toJsonAll ts = ts.map toJson := by
  induction ts with
  | nil => rfl
  | cons t ts ih => rw [toJsonAll, ih, List.map_cons]

theorem toJson_node (e : Element Float) (ts : List (Layout Float)) :
    toJson (.node e ts) = .obj (elementFields e ++ childrenField ts) := by
  cases ts with
  | nil => rw [toJson, childrenField, List.isEmpty_nil, if_pos rfl, List.append_nil]
  | cons t ts => rw [toJson, toJsonAll_eq]; rfl

/-! ## Fields that are written -/

theorem ofJson_box (h : e.box.isInverted = false) : Box.ofJson e.box.toJson = .ok e.box := by
  refine Box.ofJson_eq_ok_iff.2 ⟨_, rfl, ⟨⟨_, rfl, rfl⟩, ⟨_, rfl, rfl⟩, ⟨_, rfl, rfl⟩, ⟨_, rfl, rfl⟩⟩,
    ?_, h⟩
  simp [Box.sideNames]

theorem get?_written (key : String) : Fields.get? key (elementFields e ++ childrenField ts) =
    (Fields.get? key [("classes", .arr (e.classes.map .str)), ("bbox", e.box.toJson)]).or
      ((if !e.text.isEmpty && "text" == key then some (.str e.text) else none).or
        ((if !e.data.isEmpty && "data" == key then
          some (.obj (e.data.map fun (k, s) => (k, .str s))) else none).or
          (if !ts.isEmpty && "children" == key then some (.arr (ts.map toJson)) else none))) := by
  rw [elementFields, childrenField, Fields.get?_append, Fields.get?_append, Fields.get?_append,
    Fields.get?_unless, Fields.get?_unless, Fields.get?_unless, Option.or_assoc, Option.or_assoc]

theorem describes_written (h : e.box.isInverted = false) :
    Describes (elementFields e ++ childrenField ts) e where
  classes := rfl
  text := by
    rw [get?_written]
    cases htext : e.text.isEmpty with
    | true => simp [Fields.get?, String.isEmpty_iff.1 htext]
    | false => simp [Fields.get?]
  box := ⟨_, rfl, ofJson_box h⟩
  data := by
    rw [get?_written]
    cases hdata : e.data.isEmpty with
    | true => simp [Fields.get?, List.isEmpty_iff.1 hdata]
    | false => simp [Fields.get?]

theorem children_written :
    (Fields.get? "children" (elementFields e ++ childrenField ts)).getD (.arr []) =
      .arr (ts.map toJson) := by
  rw [get?_written]
  cases ts <;> simp [Fields.get?]

theorem known_written : ∀ f ∈ elementFields e ++ childrenField ts, f.1 ∈ fieldNames := by
  have hunless : ∀ (name : String) (v : Json) (c : Bool), name ∈ fieldNames →
      ∀ f ∈ (if c then [] else [(name, v)]), f.1 ∈ fieldNames := by
    intro name v c hname f hf
    cases c with
    | true => cases hf
    | false => rw [List.mem_singleton.1 hf]; exact hname
  simp only [elementFields, childrenField, List.forall_mem_append]
  refine ⟨⟨⟨?_, ?_⟩, ?_⟩, ?_⟩
  · simp [fieldNames]
  · exact hunless "text" _ _ (by decide)
  · exact hunless "data" _ _ (by decide)
  · exact hunless "children" _ _ (by decide)

/-! ## Reading what is written -/

mutual

theorem ofJson_toJson : ∀ t : Layout Float, (∀ e ∈ t.preorder, e.box.isInverted = false) →
    ofJson (toJson t) = .ok t
  | .node e ts, h => by
    rw [Tree.preorder, List.forall_mem_cons] at h
    rw [toJson_node, ofJson_eq_ok_iff]
    exact ⟨describes_written h.1, ⟨_, children_written, map_ofJson_toJson ts h.2⟩, known_written⟩

theorem map_ofJson_toJson : ∀ ts : List (Layout Float),
    (∀ e ∈ Tree.preorderAll ts, e.box.isInverted = false) →
      (ts.map toJson).map ofJson = ts.map .ok
  | [], _ => rfl
  | t :: ts, h => by
    rw [Tree.preorderAll, List.forall_mem_append] at h
    rw [List.map_cons, List.map_cons, List.map_cons, ofJson_toJson t h.1, map_ofJson_toJson ts h.2]

end

end Layout

/-! ## Pages -/

namespace Page

theorem layout_eq_of_ofJson {v : Json} {p : Page Float} (h : ofJson v = .ok p) :
    Layout.ofJson v = .ok p.layout ∧ p = ((ofLayout p.layout).run 0).1 := by
  rw [ofJson] at h
  cases hread : Layout.ofJson v with
  | error ps =>
    rw [hread] at h
    exact nomatch h
  | ok t =>
    rw [hread] at h
    obtain rfl := Except.ok.inj h
    rw [layout_ofLayout]
    exact ⟨rfl, rfl⟩

theorem ofJson_of_layout {v : Json} {t : Layout Float} (h : Layout.ofJson v = .ok t) :
    ofJson v = .ok ((ofLayout t).run 0).1 := by
  rw [ofJson, h]
  rfl

theorem ofJson_error_iff {v : Json} {ps : List Problem} :
    ofJson v = .error ps ↔ Layout.ofJson v = .error ps := by
  rw [ofJson]
  cases Layout.ofJson v with
  | error qs => exact ⟨fun h => congrArg Except.error (Except.error.inj h), fun h => h ▸ rfl⟩
  | ok t => exact ⟨(nomatch ·), (nomatch ·)⟩

/-- What is read from the snapshot of a page whose boxes are the right way round shows the
layout that the page shows, with every child linked to the element that holds it.  What is
read from any snapshot is linked and is read again from its own, and a snapshot is refused
exactly when one of its elements is at fault. -/
theorem snapshots_read_back :
    (∀ q : Page Float, (∀ x ∈ q.preorder, x.element.box.IsUpright) →
      ∃ p, ofJson q.toJson = .ok p ∧ p.layout = q.layout ∧ p.WellLinked) ∧
    (∀ v p, ofJson v = .ok p → p.WellLinked ∧ ofJson p.toJson = .ok p) ∧
    ∀ fs, (∃ ps, ofJson (.obj fs) = .error ps) ↔
      ∃ gs, Layout.ElementOf gs fs ∧ Layout.Faulty gs := by
  refine ⟨fun q h => ?_, fun v p h => ?_, fun fs => ?_⟩
  · have hboxes : ∀ e ∈ q.layout.preorder, e.box.isInverted = false := by
      rw [layout, Tree.preorder_map]
      exact List.forall_mem_map.2 fun x hx => (h x hx).isInverted_eq_false
    exact ⟨_, ofJson_of_layout (Layout.ofJson_toJson q.layout hboxes), layout_ofLayout _ 0,
      wellLinked_ofLayout _ 0⟩
  · obtain ⟨hread, hbuilt⟩ := layout_eq_of_ofJson h
    have hagain := Layout.ofJson_toJson p.layout (Layout.isInverted_of_ofJson hread)
    refine ⟨hbuilt ▸ wellLinked_ofLayout p.layout 0, ?_⟩
    rw [toJson, ofJson_of_layout hagain, ← hbuilt]
  · rw [← Layout.refused_iff]
    exact exists_congr fun ps => ofJson_error_iff

/-- A one with a note and a plus without, in a group; the parents are not set. -/
def notedOne : Page Float :=
  .node ⟨0, none, ["base"], "", ⟨0, 0, 20, 40⟩, []⟩
    [.node ⟨0, none, ["mord"], "1", ⟨0, 10, 10, 30⟩, [("ast-id", "term[0]")]⟩ [],
      .node ⟨0, none, ["mbin"], "+", ⟨10, 10, 20, 30⟩, []⟩ []]

/-- A snapshot with little more than boxes, whose sides are not all numbers. -/
def bareBoxes : Json :=
  .obj [("bbox", .obj [("left", .str "0"), ("top", .int 0), ("right", .int 10), ("bottom", .int 1)]),
    ("children", .arr [.obj [("text", .str ""),
      ("bbox", .obj [("left", .bool true), ("top", .int 0), ("right", .int 9), ("bottom", .int 1)])]])]

theorem notedOne_reads_back : (∀ x ∈ notedOne.preorder, x.element.box.IsUpright) ∧
    (∃ p, ofJson notedOne.toJson = .ok p ∧ p.layout = notedOne.layout ∧ p.WellLinked) ∧
      ∃ p, ofJson bareBoxes = .ok p ∧ p.WellLinked ∧ ofJson p.toJson = .ok p := by
  have hupright : ∀ x ∈ notedOne.preorder, x.element.box.IsUpright := by decide +kernel
  obtain ⟨hback, hagain, -⟩ := snapshots_read_back
  have hsome : (ofJson bareBoxes).toOption.isSome = true := by decide +kernel
  obtain ⟨p, hp⟩ := Option.isSome_iff_exists.1 hsome
  have hread : ofJson bareBoxes = .ok p := by
    cases h : ofJson bareBoxes with
    | error ps => rw [h] at hp; exact nomatch hp
    | ok q => rw [h] at hp; rw [Option.some.inj hp]
  exact ⟨hupright, hback notedOne hupright, p, hread, hagain _ p hread⟩

end Page
end FormulaMap

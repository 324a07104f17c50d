/-
Which snapshots are layouts.

A snapshot is an object whose fields are known, are of the right kind and give a box that is
the right way round, and whose children are snapshots again.  `Faulty` names the ways in which
one object fails to be so, its children apart; a snapshot is refused exactly when an object at
some depth of it is faulty (`refused_iff`).  What is written for a layout leaves out empty
fields, for which reading has its defaults, so it is read as the layout that it came from.
-/
import FormulaMap.Layout.Data
import FormulaMap.Proofs.Geometry.Sides
import Mathlib.Data.Set.List

namespace FormulaMap

namespace Layout

/-- What a field of an element takes. -/
def Fits (name : String) (v : Json) : Prop :=
  match name with
  | "classes" => ∃ names : List String, v = .arr (names.map .str)
  | "text" => ∃ s, v = .str s
  | "bbox" => ∃ gs, v = .obj gs
  | "data" => ∃ ds : Fields String, v = .obj (ds.map fun (k, s) => (k, .str s))
  | "children" => ∃ items : List (Fields Json), v = .arr (items.map .obj)
  | _ => False

/-- How the fields of an element can be at fault, its children apart. -/
inductive Faulty (fs : Fields Json) : Prop
  | unknown {f : String × Json} : f ∈ fs → f.1 ∉ fieldNames → Faulty fs
  | unfit {name : String} {v : Json} : name ∈ fieldNames → Fields.get? name fs = some v →
      ¬Fits name v → Faulty fs
  | missing : Fields.get? "bbox" fs = none → Faulty fs
  | box {gs : Fields Json} : Fields.get? "bbox" fs = some (.obj gs) → Box.FaultySides gs → Faulty fs

/-- An object stands in a snapshot, at some depth, as one of its elements. -/
inductive ElementOf : Fields Json → Fields Json → Prop
  | self (fs : Fields Json) : ElementOf fs fs
  | child {fs gs hs : Fields Json} {items : List Json} :
      Fields.get? "children" gs = some (.arr items) → .obj hs ∈ items → ElementOf fs hs →
      ElementOf fs gs

/-- The fields describe an element; one that is left out is empty. -/
structure Describes (fs : Fields Json) (e : Element Float) : Prop where
  classes : (Fields.get? "classes" fs).getD (.arr []) = .arr (e.classes.map .str)
  text : (Fields.get? "text" fs).getD (.str "") = .str e.text
  box : ∃ gs, Fields.get? "bbox" fs = some (.obj gs) ∧ Box.ofJson (.obj gs) = .ok e.box
  data : (Fields.get? "data" fs).getD (.obj []) = .obj (e.data.map fun (k, s) => (k, .str s))

variable {fs : Fields Json} {e : Element Float} {t : Layout Float} {ts : List (Layout Float)}
  {v : Json}

/-! ### Reading -/

theorem childrenOf_eq : childrenOf fs = (Fields.get? "children" fs).map listOf := by
  induction fs with
  | nil => rfl
  | cons f fs ih =>
    obtain ⟨k, v⟩ := f
    rw [childrenOf, ih, Fields.get?_cons]
    split <;> rfl

theorem itemsFrom_eq_ok_iff {i : Nat} {xs : List Json} :
    itemsFrom i xs = .ok ts ↔ xs.map ofJson = ts.map .ok := by
  induction xs generalizing i ts with
  | nil => cases ts <;> simp [itemsFrom]
  | cons x xs ih => cases ts <;> simp [itemsFrom, ih]

theorem listOf_eq_ok_iff : listOf v = .ok ts ↔ ∃ xs, v = .arr xs ∧ xs.map ofJson = ts.map .ok := by
  cases v <;> simp [listOf, itemsFrom_eq_ok_iff]

theorem classes_eq_ok_iff {names : List String} :
    Field.withDefault fs "classes" [] (Field.list Field.string) = .ok names ↔
      (Fields.get? "classes" fs).getD (.arr []) = .arr (names.map .str) := by
  rw [Field.withDefault_eq_ok_iff_getD (.arr []), Field.list_string_eq_ok_iff]
  intro b
  rw [Field.list_string_eq_ok_iff]
  cases b <;> simp

theorem text_eq_ok_iff {s : String} : Field.withDefault fs "text" "" Field.string = .ok s ↔
    (Fields.get? "text" fs).getD (.str "") = .str s := by
  rw [Field.withDefault_eq_ok_iff_getD (.str ""), Field.string_eq_ok_iff]
  intro b
  rw [Field.string_eq_ok_iff, Json.str.injEq, eq_comm]

theorem data_eq_ok_iff {ds : Fields String} :
    Field.withDefault fs "data" [] Field.texts = .ok ds ↔
      (Fields.get? "data" fs).getD (.obj []) = .obj (ds.map fun (k, s) => (k, .str s)) := by
  rw [Field.withDefault_eq_ok_iff_getD (.obj []), Field.texts_eq_ok_iff]
  intro b
  rw [Field.texts_eq_ok_iff]
  cases b <;> simp

theorem box_eq_ok_iff {b : Box Float} : Field.required fs "bbox" Box.ofJson = .ok b ↔
    ∃ gs, Fields.get? "bbox" fs = some (.obj gs) ∧ Box.ofJson (.obj gs) = .ok b := by
  rw [Field.required_eq_ok_iff]
  constructor
  · rintro ⟨v, hv, hb⟩
    obtain ⟨gs, rfl, -⟩ := Box.ofJson_eq_ok_iff.1 hb
    exact ⟨gs, hv, hb⟩
  · rintro ⟨gs, hv, hb⟩
    exact ⟨_, hv, hb⟩

theorem children_eq_ok_iff {o : Option Json} : (o.map listOf).getD (.ok []) = .ok ts ↔
    ∃ xs, o.getD (.arr []) = .arr xs ∧ xs.map ofJson = ts.map .ok := by
  cases o with
  | none => cases ts <;> simp
  | some v => simp [listOf_eq_ok_iff]

/-- One object is read by its fields and the list of its children. -/
theorem ofJson_eq_ok_iff : ofJson (.obj fs) = .ok (.node e ts) ↔ Describes fs e ∧
    (∃ xs, (Fields.get? "children" fs).getD (.arr []) = .arr xs ∧ xs.map ofJson = ts.map .ok) ∧
      ∀ f ∈ fs, f.1 ∈ fieldNames := by
  rw [ofJson, ofParts, childrenOf_eq]
  simp only [Checked.alsoOk_eq_ok_iff, Checked.map2_eq_ok_iff, Checked.both_eq_ok_iff,
    Checked.under_eq_ok_iff, Field.noOthers_eq_ok_iff, Prod.exists, Tree.node.injEq,
    classes_eq_ok_iff, text_eq_ok_iff, data_eq_ok_iff, box_eq_ok_iff, children_eq_ok_iff]
  constructor
  · rintro ⟨⟨_, _, ⟨_, _, _, _, ⟨hclasses, htext⟩, ⟨hbox, hdata⟩, rfl⟩, hitems, rfl, rfl⟩, hknown⟩
    exact ⟨⟨hclasses, htext, hbox, hdata⟩, hitems, hknown⟩
  · rintro ⟨⟨hclasses, htext, hbox, hdata⟩, hitems, hknown⟩
    exact ⟨⟨_, _, ⟨_, _, _, _, ⟨hclasses, htext⟩, ⟨hbox, hdata⟩, rfl⟩, hitems, rfl, rfl⟩, hknown⟩

theorem exists_obj_of_ofJson (h : ofJson v = .ok t) : ∃ fs, v = .obj fs := by
  cases v with
  | obj fs => exact ⟨fs, rfl⟩
  | _ => simp [ofJson] at h

/-! ### Boxes of what is read -/

mutual

theorem isInverted_of_ofJson : ∀ {v : Json} {t : Layout Float}, ofJson v = .ok t →
    ∀ e ∈ t.preorder, e.box.isInverted = false
  | v, .node e ts, h => by
    obtain ⟨fs, rfl⟩ := exists_obj_of_ofJson h
    obtain ⟨hdescribes, ⟨xs, -, hitems⟩, -⟩ := ofJson_eq_ok_iff.1 h
    obtain ⟨gs, -, hbox⟩ := hdescribes.box
    obtain ⟨-, -, -, -, hbox⟩ := Box.ofJson_eq_ok_iff.1 hbox
    rw [Tree.preorder, List.forall_mem_cons]
    exact ⟨hbox, isInverted_of_map_ofJson hitems⟩

theorem isInverted_of_map_ofJson : ∀ {xs : List Json} {ts : List (Layout Float)},
    xs.map ofJson = ts.map .ok → ∀ e ∈ Tree.preorderAll ts, e.box.isInverted = false
  | _, [], _ => nofun
  | [], _ :: _, h => by cases h
  | x :: xs, t :: ts, h => by
    rw [List.map_cons, List.map_cons, List.cons.injEq] at h
    rw [Tree.preorderAll, List.forall_mem_append]
    exact ⟨isInverted_of_ofJson h.1, isInverted_of_map_ofJson h.2⟩

end

/-! ### Refusing -/

/-- Values that are read one by one are read together. -/
theorem exists_map_ofJson {xs : List Json} (h : ∀ x ∈ xs, ∃ t, ofJson x = .ok t) :
    ∃ ts : List (Layout Float), xs.map ofJson = ts.map .ok := by
  have hrange : xs.map ofJson ∈ Set.range (List.map (Except.ok : Layout Float → _)) := by
    rw [Set.range_list_map]
    intro y hy
    obtain ⟨x, hx, rfl⟩ := List.mem_map.1 hy
    obtain ⟨t, ht⟩ := h x hx
    exact ⟨t, ht.symm⟩
  obtain ⟨ts, hts⟩ := hrange
  exact ⟨ts, hts.symm⟩

theorem exists_ofJson_of_mem {xs : List Json} (h : xs.map ofJson = ts.map .ok) {x : Json}
    (hx : x ∈ xs) : ∃ t, ofJson x = .ok t := by
  have hmem := List.mem_map_of_mem (f := ofJson) hx
  rw [h] at hmem
  obtain ⟨t, -, ht⟩ := List.mem_map.1 hmem
  exact ⟨t, ht.symm⟩

/-- Children that are read are objects. -/
theorem exists_objects {xs : List Json} (h : ∀ x ∈ xs, ∃ t, ofJson x = .ok t) :
    ∃ items : List (Fields Json), xs = items.map .obj := by
  have hrange : xs ∈ Set.range (List.map Json.obj) := by
    rw [Set.range_list_map]
    intro x hx
    obtain ⟨t, ht⟩ := h x hx
    obtain ⟨fs, rfl⟩ := exists_obj_of_ofJson ht
    exact ⟨fs, rfl⟩
  obtain ⟨items, hitems⟩ := hrange
  exact ⟨items, hitems.symm⟩

theorem Describes.fits (h : Describes fs e) {xs : List Json}
    (hxs : (Fields.get? "children" fs).getD (.arr []) = .arr xs)
    (hitems : xs.map ofJson = ts.map .ok) :
    ∀ name ∈ fieldNames, ∀ v, Fields.get? name fs = some v → Fits name v := by
  simp only [fieldNames, List.forall_mem_cons]
  refine ⟨fun v hv => ?_, fun v hv => ?_, fun v hv => ?_, fun v hv => ?_, fun v hv => ?_, nofun⟩
  · have hclasses := h.classes
    rw [hv, Option.getD_some] at hclasses
    exact ⟨_, hclasses⟩
  · have htext := h.text
    rw [hv, Option.getD_some] at htext
    exact ⟨_, htext⟩
  · obtain ⟨gs, hgs, -⟩ := h.box
    rw [hv, Option.some.injEq] at hgs
    exact ⟨gs, hgs⟩
  · have hdata := h.data
    rw [hv, Option.getD_some] at hdata
    exact ⟨_, hdata⟩
  · rw [hv, Option.getD_some] at hxs
    obtain ⟨items, rfl⟩ := exists_objects fun x => exists_ofJson_of_mem hitems
    exact ⟨items, hxs⟩

/-- An element without a fault is described by its fields. -/
theorem exists_describes (h : ¬Faulty fs) : ∃ e, Describes fs e := by
  have hfits : ∀ name ∈ fieldNames, ∀ v, Fields.get? name fs = some v → Fits name v := by
    intro name hname v hv
    by_contra hunfit
    exact h (.unfit hname hv hunfit)
  have hdefault : ∀ name ∈ fieldNames, ∀ d, Fits name d → Fits name ((Fields.get? name fs).getD d) := by
    intro name hname d hd
    cases hv : Fields.get? name fs with
    | none => exact hd
    | some v => exact hfits name hname v hv
  obtain ⟨names, hnames⟩ := hdefault "classes" (by decide) (.arr []) ⟨[], rfl⟩
  obtain ⟨s, hs⟩ := hdefault "text" (by decide) (.str "") ⟨"", rfl⟩
  obtain ⟨ds, hds⟩ := hdefault "data" (by decide) (.obj []) ⟨[], rfl⟩
  obtain ⟨gs, hgs, b, hb⟩ : ∃ gs, Fields.get? "bbox" fs = some (.obj gs) ∧
      ∃ b, Box.ofJson (.obj gs) = .ok b := by
    cases hv : Fields.get? "bbox" fs with
    | none => exact absurd (.missing hv) h
    | some v =>
      obtain ⟨gs, rfl⟩ := hfits "bbox" (by decide) v hv
      exact ⟨gs, rfl, Box.exists_ofJson_iff.2 fun hfaulty => h (.box hv hfaulty)⟩
  exact ⟨⟨names, s, b, ds⟩, hnames, hs, ⟨gs, hgs, hb⟩, hds⟩

/-- One object is read when it is not at fault and its children are read. -/
theorem exists_ofJson_iff : (∃ t, ofJson (.obj fs) = .ok t) ↔ ¬Faulty fs ∧
    ∀ items, Fields.get? "children" fs = some (.arr items) → ∀ x ∈ items, ∃ t, ofJson x = .ok t := by
  constructor
  · rintro ⟨⟨e, ts⟩, h⟩
    obtain ⟨hdescribes, ⟨xs, hxs, hitems⟩, hknown⟩ := ofJson_eq_ok_iff.1 h
    refine ⟨?_, fun items hchildren x hx => ?_⟩
    · rintro (⟨hf, hunknown⟩ | ⟨hname, hv, hunfit⟩ | hnone | ⟨hgs, hfaulty⟩)
      · exact hunknown (hknown _ hf)
      · exact hunfit (hdescribes.fits hxs hitems _ hname _ hv)
      · obtain ⟨gs, hgs, -⟩ := hdescribes.box
        rw [hnone] at hgs
        cases hgs
      · obtain ⟨gs', hgs', hbox⟩ := hdescribes.box
        rw [hgs, Option.some.injEq, Json.obj.injEq] at hgs'
        exact Box.exists_ofJson_iff.1 ⟨_, hgs' ▸ hbox⟩ hfaulty
    · rw [hchildren, Option.getD_some, Json.arr.injEq] at hxs
      exact exists_ofJson_of_mem hitems (hxs ▸ hx)
  · rintro ⟨hfine, hchildren⟩
    obtain ⟨e, he⟩ := exists_describes hfine
    have hknown : ∀ f ∈ fs, f.1 ∈ fieldNames := by
      intro f hf
      by_contra hunknown
      exact hfine (.unknown hf hunknown)
    cases hv : Fields.get? "children" fs with
    | none =>
      refine ⟨.node e [], ofJson_eq_ok_iff.2 ⟨he, ⟨[], ?_, rfl⟩, hknown⟩⟩
      rw [hv, Option.getD_none]
    | some v =>
      have hfits : Fits "children" v := by
        by_contra hunfit
        exact hfine (.unfit (by decide) hv hunfit)
      obtain ⟨items, rfl⟩ := hfits
      obtain ⟨ts, hts⟩ := exists_map_ofJson (hchildren _ hv)
      refine ⟨.node e ts, ofJson_eq_ok_iff.2 ⟨he, ⟨_, ?_, hts⟩, hknown⟩⟩
      rw [hv, Option.getD_some]

theorem sizeOf_lt_of_child {items : List Json} {gs : Fields Json}
    (h : Fields.get? "children" fs = some (.arr items)) (hgs : .obj gs ∈ items) :
    sizeOf gs < sizeOf fs := by
  obtain ⟨⟨k, v⟩, hfound, rfl⟩ := Option.map_eq_some_iff.1 h
  have hitem := List.sizeOf_lt_of_mem hgs
  have hfield := List.sizeOf_lt_of_mem (List.mem_of_find?_eq_some hfound)
  simp only [Json.obj.sizeOf_spec, Json.arr.sizeOf_spec, Prod.mk.sizeOf_spec] at hitem hfield
  omega

theorem ElementOf.not_faulty {gs : Fields Json} (h : ElementOf gs fs)
    (hfs : ∃ t, ofJson (.obj fs) = .ok t) : ¬Faulty gs := by
  induction h with
  | self => exact (exists_ofJson_iff.1 hfs).1
  | child hitems hmem _ ih => exact ih ((exists_ofJson_iff.1 hfs).2 _ hitems _ hmem)

theorem exists_ofJson_of_not_faulty {fs : Fields Json} (h : ∀ gs, ElementOf gs fs → ¬Faulty gs) :
    ∃ t, ofJson (.obj fs) = .ok t := by
  refine exists_ofJson_iff.2 ⟨h fs (.self fs), fun items hitems x hx => ?_⟩
  have hfits : Fits "children" (.arr items) := by
    by_contra hunfit
    exact h fs (.self fs) (.unfit (by decide) hitems hunfit)
  obtain ⟨objects, hobjects⟩ := hfits
  obtain rfl := Json.arr.inj hobjects
  obtain ⟨gs, hgs, rfl⟩ := List.mem_map.1 hx
  have hsmaller := sizeOf_lt_of_child hitems hx
  exact exists_ofJson_of_not_faulty fun hs hhs => h hs (.child hitems hx hhs)
termination_by sizeOf fs

/-- A snapshot is refused exactly when one of its elements, at any depth, is at fault. -/
theorem refused_iff (fs : Fields Json) : (∃ ps, ofJson (.obj fs) = .error ps) ↔
    ∃ gs, ElementOf gs fs ∧ Faulty gs := by
  rw [Checked.exists_error_iff]
  constructor
  · intro h
    by_contra hnone
    obtain ⟨t, ht⟩ := exists_ofJson_of_not_faulty fun gs hgs hfaulty => hnone ⟨gs, hgs, hfaulty⟩
    exact h t ht
  · rintro ⟨gs, hgs, hfaulty⟩ t ht
    exact hgs.not_faulty ⟨t, ht⟩ hfaulty

end Layout
end FormulaMap

/-
The paths in the annotated source of an expression that was given.

A note is a list of entries between commas, and the path in it is the value of the first
one.  It is read back less the characters that end a note or an entry (`pathOf?_note`), so the
paths in a source are those of the nodes, signs left out (`embedded_annotated`).

Whether paths are assigned is decided by the root alone.  When it has none, every node is
given its address, whatever it had before.  When it has one, every node keeps its own, and
the source is only as good as these are (`usable_iff`).
-/
import FormulaMap.Formula.Data
import FormulaMap.Proofs.Formula.Notes
import FormulaMap.Proofs.Formula.Totality
import Mathlib.Data.List.TakeWhile

namespace FormulaMap

/-! ## The path in a note -/

namespace Annotations

/-- The value of the entry that holds the path. -/
def pathOf? (note : List Char) : Option String := (entries note).lookup "ast-id"

/-- The paths in the notes of a source, from left to right. -/
def embedded (cs : List Char) : List (Option String) :=
  (heads cs).map fun head => head.bind pathOf?

/-- A path as it is read back from a note: without braces and backslashes, up to a comma. -/
def asRead (p : Option String) : String := String.ofList ((escapePath p).takeWhile (· != ','))

/-- What a reader of a source can do with the paths in it: each is well formed, and no two
notes have the same. -/
structure Usable (source : String) : Prop where
  valid : ∀ p ∈ embedded source.toList, ∃ path, p = some path ∧ Path.isValid path = true
  distinct : (embedded source.toList).Nodup

/-- The first comma of a note stands behind its path, or in it. -/
theorem exists_note_eq (p : Option String) (r : Role) (o : Option String) :
    ∃ rest, note p r o = ("ast-id".toList ++ '=' :: (asRead p).toList) ++ ',' :: rest := by
  have hid : "ast-id=".toList = "ast-id".toList ++ ['='] := by decide
  have hrole : ", role=".toList = ',' :: " role=".toList := by decide
  have hnote : ∃ tail, note p r o = "ast-id".toList ++ '=' :: (escapePath p ++ ',' :: tail) := by
    unfold note
    rw [hid, hrole]
    simp only [List.append_assoc, List.cons_append, List.nil_append]
    exact ⟨_, rfl⟩
  have hescape : escapePath p = (asRead p).toList ++ (escapePath p).dropWhile (· != ',') := by
    rw [asRead, String.toList_ofList, List.takeWhile_append_dropWhile]
  obtain ⟨tail, hnote⟩ := hnote
  rw [hnote, hescape]
  cases hdrop : (escapePath p).dropWhile (· != ',') with
  | nil => exact ⟨tail, by simp only [List.append_assoc, List.cons_append, List.append_nil]⟩
  | cons c rest =>
    obtain rfl : c = ',' := by
      have hhead := List.head?_dropWhile_not (· != ',') (escapePath p)
      rw [hdrop] at hhead
      simpa using hhead
    exact ⟨rest ++ ',' :: tail, by simp only [List.append_assoc, List.cons_append]⟩

theorem pathOf?_note (p : Option String) (r : Role) (o : Option String) :
    pathOf? (note p r o) = some (asRead p) := by
  obtain ⟨rest, hnote⟩ := exists_note_eq p r o
  have hcomma : ',' ∉ "ast-id".toList ++ '=' :: (asRead p).toList := by
    have hread : ',' ∉ (asRead p).toList := by
      rw [asRead, String.toList_ofList]
      intro hmem
      simpa using List.mem_takeWhile_imp hmem
    rw [List.mem_append, List.mem_cons, not_or, not_or]
    exact ⟨by decide, by decide, hread⟩
  have hkey : String.ofList ("ast-id".toList.dropWhile Text.isBlank) = "ast-id" := by decide
  rw [pathOf?, entries, hnote, List.splitOn_append_cons_self_of_not_mem hcomma, List.map_cons,
    entry_append (by decide), hkey, String.ofList_toList, List.lookup_cons_self]

/-- A path that has been assigned has nothing that would be left out. -/
theorem asRead_ofSteps (steps : List PathStep) :
    asRead (some (Path.ofSteps steps)) = Path.ofSteps steps := by
  have hescape : escapePath (some (Path.ofSteps steps)) = (Path.ofSteps steps).toList :=
    List.filter_eq_self.2 (List.all_eq_true.1 (Path.plain_ofSteps steps))
  rw [asRead, hescape, List.takeWhile_eq_self_iff.2, String.ofList_toList]
  intro c hc
  rw [bne_iff_ne]
  rintro rfl
  exact Path.comma_not_mem_ofSteps steps hc

end Annotations

namespace Expr

open Annotations

/-- The nodes that carry a note. -/
def noted (e : Expr) : List Expr := e.nodes.filter fun n => !n.isNegation

theorem filterMap_note? (ns : List Expr) :
    (ns.filterMap note?).map pathOf? =
      (ns.filter fun n => !n.isNegation).map fun n => some (asRead n.path) := by
  induction ns with
  | nil => rfl
  | cons n ns ih =>
    rw [List.filterMap_cons, List.filter_cons, ← isSome_note?]
    cases hnote : n.note? with
    | none => exact ih
    | some note =>
      obtain ⟨r, -, rfl⟩ := Option.map_eq_some_iff.1 hnote
      rw [Option.isSome_some, if_pos rfl, List.map_cons, List.map_cons, pathOf?_note, ih]

/-- The paths in the source of an expression are those of its nodes. -/
theorem embedded_annotated {e : Expr} (h : e.plainTexts = true) :
    embedded e.annotated.toList = e.noted.map fun n => some (asRead n.path) := by
  rw [embedded, heads_annotated h, List.map_map, noted, ← filterMap_note?]
  rfl

/-- The paths that the nodes of an expression have would do as they are. -/
structure WellPathed (e : Expr) : Prop where
  valid : ∀ n ∈ e.noted, Path.isValid (asRead n.path) = true
  distinct : (e.noted.map fun n => asRead n.path).Nodup

theorem nodup_asRead_iff (e : Expr) :
    (e.noted.map fun n => some (asRead n.path)).Nodup ↔
      (e.noted.map fun n => asRead n.path).Nodup := by
  have hinjective : Function.Injective (some : String → Option String) := fun _ _ => Option.some.inj
  rw [← List.nodup_map_iff hinjective, List.map_map]
  rfl

theorem usable_annotated_iff {e : Expr} (h : e.plainTexts = true) :
    Usable e.annotated ↔ e.WellPathed := by
  have hembedded := embedded_annotated h
  constructor
  · rintro ⟨hvalid, hdistinct⟩
    rw [hembedded] at hvalid hdistinct
    refine ⟨fun n hn => ?_, e.nodup_asRead_iff.1 hdistinct⟩
    obtain ⟨path, hpath, hv⟩ := hvalid _ (List.mem_map_of_mem hn)
    rwa [Option.some.inj hpath]
  · rintro ⟨hvalid, hdistinct⟩
    refine ⟨?_, ?_⟩
    · rw [hembedded]
      intro p hp
      obtain ⟨n, hn, rfl⟩ := List.mem_map.1 hp
      exact ⟨_, rfl, hvalid n hn⟩
    · rw [hembedded]
      exact e.nodup_asRead_iff.2 hdistinct

theorem wellPathed_assignPaths (e : Expr) : e.assignPaths.WellPathed := by
  obtain ⟨hlocated, hdistinct⟩ := e.addressed_assignPaths
  have hread : ∀ n ∈ e.assignPaths.noted, n.path = some (asRead n.path) := by
    intro n hn
    obtain ⟨steps, hpath⟩ := path_of_mem_nodes_assignPaths (List.mem_filter.1 hn).1
    rw [hpath, asRead_ofSteps]
  constructor
  · intro n hn
    obtain ⟨p, hp, hvalid⟩ := hlocated n (List.mem_filter.1 hn).1
    rw [hread n hn, Option.some.injEq] at hp
    rwa [hp]
  · have hpaths : (e.assignPaths.noted.map path).Nodup :=
      hdistinct.sublist (List.filter_sublist.map path)
    rw [List.map_congr_left hread] at hpaths
    exact e.assignPaths.nodup_asRead_iff.1 hpaths

end Expr

namespace Instrumented

open Annotations

/-- The expression whose paths are written: the root decides whether they are assigned. -/
def pathed (e : Expr) : Expr := if e.path.isNone then e.assignPaths else e

theorem ofExpr?_some (e : Expr) :
    ofExpr? (some e) = (some (pathed e), ⟨true, (pathed e).annotated, none⟩) := by
  rw [ofExpr?, ofExpr, pathed, Expr.not_allBlank_annotated, if_neg Bool.false_ne_true]

/-- An expression without braces and backslashes in its texts is annotated with the paths of
its nodes.  They can be used when the root has no path, so that paths are assigned, and
otherwise exactly when those that were given can. -/
theorem usable_iff {e : Expr} (h : e.plainTexts = true) :
    ∃ source, ofExpr? (some e) = (some (pathed e), ⟨true, source, none⟩) ∧
      embedded source.toList = (pathed e).noted.map (fun n => some (asRead n.path)) ∧
      (Usable source ↔ e.path = none ∨ e.WellPathed) := by
  have hplain : (pathed e).plainTexts = true := by
    unfold pathed
    split
    · rw [Expr.assignPaths, Expr.plainTexts_assignFrom, h]
    · exact h
  refine ⟨(pathed e).annotated, ofExpr?_some e, Expr.embedded_annotated hplain, ?_⟩
  rw [Expr.usable_annotated_iff hplain]
  cases hpath : e.path with
  | none =>
    have hassigned : pathed e = e.assignPaths := by rw [pathed, hpath]; rfl
    rw [hassigned]
    exact iff_of_true e.wellPathed_assignPaths (Or.inl rfl)
  | some p =>
    have hown : pathed e = e := by rw [pathed, hpath]; rfl
    rw [hown]
    simp

/-- Paths that were left on operands do not matter when the root has none. -/
theorem usable_staleOperands :
    let e : Expr := .binary .add (.numeral "1" (some "x"))
      (.negation (.numeral "-2" (some "x")) none) none
    e.plainTexts = true ∧ ∃ source, ofExpr? (some e) = (some (pathed e), ⟨true, source, none⟩) ∧
      embedded source.toList = [some "term[0]", some "root", some "term[1].arg"] ∧
      Usable source := by
  intro e
  obtain ⟨source, hsource, hembedded, husable⟩ := usable_iff (by decide : e.plainTexts = true)
  exact ⟨by decide, source, hsource, hembedded.trans (by decide +kernel), husable.2 (Or.inl rfl)⟩

/-- Operands without a path below a root that has one are written with no path, and both
alike. -/
theorem not_forall_usable :
    ¬ ∀ (v : Json) (e : Expr), Expr.ofJson v = .ok e → e.plainTexts = true →
      Usable (ofExpr? (some e)).2.source := by
  intro h
  let e : Expr := .binary .add (.numeral "1" none) (.numeral "2" none) (some "root")
  have hread : Expr.ofJson e.toJson = .ok e := rfl
  have husable := (h e.toJson e hread (by decide)).distinct
  rw [ofExpr?_some] at husable
  have hpaths : embedded (pathed e).annotated.toList = [some "", some "root", some ""] := by
    decide +kernel
  rw [hpaths] at husable
  exact absurd husable (by decide)

end Instrumented
end FormulaMap

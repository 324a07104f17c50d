/-
What the annotating command prints, and what it returns.

There is a report on every formula (`exists_report`).  The command ends in one of three ways
with it: the formula is refused, or it is annotated and the value that is asked for can be
written, or it is annotated and the value is too long to be written.  In the first two what is
printed tells the status, as lines (`Told`) and as an object (`OneObject`).  In the third the
lines tell success before they tell the error, and there is no object at all.

So what is printed tells the status exactly when the value that is asked for can be written
(`consistent_iff_writable`), and the square of a number of 2151 digits cannot
(`not_forall_consistent`).
-/
import FormulaMap.Command.Instrument
import FormulaMap.Proofs.Formula.Remarks
import FormulaMap.Proofs.Json.Printing
import FormulaMap.Proofs.Json.RoundTrip
import FormulaMap.Proofs.Number.Digits

namespace FormulaMap

open Text (OneLine lineStarts lineStarts_of_not_mem)

/-! ## Printed lines -/

namespace CommandResult

/-- A line that starts like this is printed. -/
def Prints (r : CommandResult) (start : String) : Prop :=
  ∃ l ∈ r.output.toList.splitOn '\n', start.toList <+: l

variable {ls : List String} {start : String} {e : Ending}

theorem toList_lines_cons (l : String) (ls : List String) :
    (lines (l :: ls)).toList = l.toList ++ '\n' :: (lines ls).toList := by
  simp [lines]

theorem lineStarts_lines (ls : List String) :
    lineStarts (lines ls).toList = ls.flatMap fun l => lineStarts l.toList := by
  induction ls with
  | nil => rfl
  | cons l ls ih =>
    rw [toList_lines_cons, Text.lineStarts_append_feed, ih, List.flatMap_cons]

theorem prints_of_mem {l : String} (hl : l ∈ ls) (hline : OneLine l)
    (hstart : start.toList <+: l.toList) : (⟨lines ls, e⟩ : CommandResult).Prints start := by
  refine ⟨l.toList, ?_, hstart⟩
  show l.toList ∈ (lines ls).toList.splitOn '\n'
  induction ls with
  | nil => exact absurd hl List.not_mem_nil
  | cons l' ls ih =>
    rw [toList_lines_cons, Text.splitOn_append_feed, List.mem_append]
    rcases List.mem_cons.1 hl with rfl | hl
    · rw [List.splitOn_eq_singleton hline]
      exact .inl List.mem_cons_self
    · exact .inr (ih hl)

theorem Prints.mem_lineStarts {r : CommandResult} {c : Char} (h : r.Prints start)
    (hc : start.toList.head? = some c) : c ∈ lineStarts r.output.toList := by
  obtain ⟨l, hl, cs, rfl⟩ := h
  exact List.mem_filterMap.2 ⟨_, hl, by rw [List.head?_append, hc]; rfl⟩

end CommandResult

/-! ## Expressions as data -/

namespace Expr

theorem exists_toJson_eq_obj (e : Expr) : ∃ fs, e.toJson = .obj fs := by
  cases e <;> exact ⟨_, rfl⟩

theorem plain_toJson (e : Expr) : e.toJson.Plain := by
  induction e with
  | numeral t p =>
    refine .obj ?_ ?_
    · cases p <;> simp [pathField]
    · cases p <;> simp [pathField, Json.Plain.str]
  | binary o l r p ihl ihr =>
    refine .obj ?_ ?_
    · cases p <;> simp [pathField]
    · cases p <;> simp [pathField, Json.Plain.str, ihl, ihr]
  | negation a p ih =>
    refine .obj ?_ ?_
    · cases p <;> simp [pathField]
    · cases p <;> simp [pathField, Json.Plain.str, ih]
  | fraction n d p ihn ihd =>
    have hargs : (Json.arr [n.toJson, d.toJson]).Plain := .arr (by simp [ihn, ihd])
    refine .obj ?_ ?_
    · cases p <;> simp [pathField]
    · cases p <;> simp [pathField, Json.Plain.str, hargs]
  | mixed w n d p =>
    refine .obj ?_ ?_
    · cases p <;> simp [pathField]
    · cases p <;> simp [pathField, Json.Plain.str]

theorem integers_toJson (e : Expr) : e.toJson.integers = [] := by
  induction e with
  | numeral t p => cases p <;> rfl
  | binary o l r p ihl ihr =>
    cases p <;> simp [toJson, pathField, Json.integers, Json.fieldIntegers, ihl, ihr]
  | negation a p ih => cases p <;> simp [toJson, pathField, Json.integers, Json.fieldIntegers, ih]
  | fraction n d p ihn ihd =>
    cases p <;>
      simp [toJson, pathField, Json.integers, Json.fieldIntegers, Json.itemIntegers, ihn, ihd]
  | mixed w n d p => cases p <;> rfl

end Expr

/-! ## Reports -/

namespace InstrumentCommand

open CommandResult (Prints)

/-- The exact value that is asked for. -/
def Options.IsValue (o : Options) (x : Rat) : Prop :=
  o.evaluate = true ∧ ∃ e, (Parsed.ofString o.formula).expr = some e ∧ e.Denotes x

/-- What is known of the report on a formula. -/
structure Settled (o : Options) (r : Report) : Prop where
  warnings : ∀ w ∈ r.warnings, OneLine w
  value : ∀ x, r.value = some x ↔ o.IsValue x
  annotated : r.outcome.success = true → OneLine r.outcome.source ∧ ∃ e, r.expr = some e
  failed : r.outcome.success = false → r.outcome.reason = some Parsed.failed ∧ r.value = none

variable {o : Options} {r : Report}

/-- There is a report on every formula. -/
theorem exists_report (o : Options) : ∃ r, report o = .ok r ∧ Settled o r := by
  have hremarks : ∀ w ∈ (Parsed.ofString o.formula).warnings.map ParseWarning.message,
      OneLine w := by
    intro w hw
    obtain ⟨i, hi, rfl⟩ := List.mem_map.1 hw
    exact Parsed.oneLine_of_mem_warnings hi
  have hissues : ∀ v : Valuation, ∀ w ∈ v.issues.map ValueIssue.message, OneLine w := by
    intro v w hw
    obtain ⟨i, -, rfl⟩ := List.mem_map.1 hw
    exact i.oneLine_message
  cases hexpr : (Parsed.ofString o.formula).expr with
  | none =>
    refine ⟨_, by rw [report, Instrumented.ofFormula_of_none hexpr]; rfl, ?_, fun x => ?_, ?_, ?_⟩
    · exact List.forall_mem_append.2 ⟨hremarks, List.forall_mem_nil _⟩
    · simp [Options.IsValue, hexpr]
    · exact fun h => absurd h Bool.false_ne_true
    · exact fun _ => ⟨rfl, rfl⟩
  | some e =>
    have hspelled : e.spelled = true := (Expr.made_of_ofString hexpr).spelled
    obtain ⟨v, hv, houtcome⟩ := Expr.exists_outcome_of_spelled hspelled
    have hvaluation : valuation o (some e.assignPaths) =
        .ok (if o.evaluate then v else ⟨none, []⟩) := by
      rw [valuation, Expr.assignPaths, Expr.value_assignFrom, hv]
      cases o.evaluate <;> rfl
    have hreport : report o = .ok ⟨some e.assignPaths, ⟨true, e.assignPaths.annotated, none⟩,
        (Parsed.ofString o.formula).warnings.map ParseWarning.message ++
          (if o.evaluate then v else ⟨none, []⟩).issues.map ValueIssue.message,
        (if o.evaluate then v else ⟨none, []⟩).value⟩ := by
      rw [report, Instrumented.ofFormula_of_some hexpr]
      dsimp only
      rw [hvaluation]
      rfl
    refine ⟨_, hreport, ?_, fun x => ?_, ?_, ?_⟩
    · exact List.forall_mem_append.2 ⟨hremarks, hissues _⟩
    · have hdenotes := houtcome.value_eq_some_iff hv x
      cases heval : o.evaluate <;> simp [Options.IsValue, hexpr, heval, hdenotes]
    · exact fun _ => ⟨Expr.oneLine_assignPaths hspelled, _, rfl⟩
    · exact fun h => absurd h.symm Bool.false_ne_true

/-! ## The text of the value -/

theorem oneLine_of_integerText? {i : Int} {s : String} (h : Numeral.integerText? i = some s) :
    OneLine s := by
  rw [Numeral.integerText?] at h
  split at h
  · cases h
  · split at h <;> cases h
    · exact (by decide : OneLine "-").append (oneLine_repr _)
    · exact oneLine_repr _

theorem oneLine_of_text? {x : Rat} {s : String} (h : Numeral.text? x = some s) : OneLine s := by
  simp only [Numeral.text?, Option.bind_eq_bind, Option.bind_eq_some_iff] at h
  obtain ⟨n, hn, h⟩ := h
  split at h
  · cases h
    exact oneLine_of_integerText? hn
  · obtain ⟨d, hd, h⟩ := Option.bind_eq_some_iff.1 h
    cases h
    exact ((oneLine_of_integerText? hn).append (by decide)).append (oneLine_of_integerText? hd)

theorem mapM_valueText_of_writable {v : Option Rat} (h : ∀ x, v = some x → Numeral.Writable x) :
    ∃ t : Option String, v.mapM valueText = .ok t ∧ ∀ s, t = some s → OneLine s := by
  cases v with
  | none => exact ⟨none, rfl, fun s hs => nomatch hs⟩
  | some x =>
    obtain ⟨s, hs⟩ := Option.isSome_iff_exists.1 (Numeral.isSome_text?_iff.2 (h x rfl))
    have hx : valueText x = .ok s := by rw [valueText, hs]
    refine ⟨some s, ?_, ?_⟩
    · rw [Option.mapM_some, hx]
      rfl
    · rintro _ ⟨⟩
      exact oneLine_of_text? hs

theorem mapM_valueText_of_not_writable {x : Rat} (h : ¬Numeral.Writable x) :
    (some x).mapM valueText = .error Numeral.tooLong := by
  have hnone : Numeral.text? x = none :=
    Option.not_isSome_iff_eq_none.1 fun hsome => h (Numeral.isSome_text?_iff.1 hsome)
  have hx : valueText x = .error Numeral.tooLong := by rw [valueText, hnone]
  rw [Option.mapM_some, hx]
  rfl

/-! ## Lines -/

/-- The lines tell the status: one that begins with `OK:` is printed exactly on zero, and one
that begins with `ERROR:` exactly on one. -/
structure Told (r : CommandResult) : Prop where
  ok : r.Prints "OK:" ↔ r.ending = .returned 0
  error : r.Prints "ERROR:" ↔ r.ending = .returned 1

theorem told_of_returned_zero {r : CommandResult} (hending : r.ending = .returned 0)
    (hok : r.Prints "OK:") (herror : 'E' ∉ lineStarts r.output.toList) : Told r where
  ok := ⟨fun _ => hending, fun _ => hok⟩
  error := by
    refine ⟨fun hprints => absurd (hprints.mem_lineStarts (by decide)) herror, fun hone => ?_⟩
    rw [hending] at hone
    cases hone

theorem told_of_returned_one {r : CommandResult} (hending : r.ending = .returned 1)
    (herror : r.Prints "ERROR:") (hok : 'O' ∉ lineStarts r.output.toList) : Told r where
  ok := by
    refine ⟨fun hprints => absurd (hprints.mem_lineStarts (by decide)) hok, fun hzero => ?_⟩
    rw [hending] at hzero
    cases hzero
  error := ⟨fun _ => hending, fun _ => herror⟩

theorem oneLine_failed : OneLine Parsed.failed := by decide

theorem oneLine_tooLong : OneLine Numeral.tooLong := by decide +kernel

theorem lineStarts_label {label s : String} {c : Char} (hlabel : OneLine label)
    (hc : label.toList.head? = some c) (hs : OneLine s) : lineStarts (label ++ s).toList = [c] := by
  rw [lineStarts_of_not_mem (hlabel.append hs), String.toList_append, List.head?_append, hc]
  rfl

theorem prints_label {ls : List String} {label s start : String} {e : Ending}
    (hmem : label ++ s ∈ ls) (hlabel : OneLine label) (hs : OneLine s)
    (hstart : start.toList <+: label.toList) :
    (⟨CommandResult.lines ls, e⟩ : CommandResult).Prints start := by
  refine CommandResult.prints_of_mem hmem (hlabel.append hs) ?_
  rw [String.toList_append]
  exact hstart.trans (List.prefix_append _ _)

def warningLines (r : Report) : List String := r.warnings.map fun w => "WARNING: " ++ w

theorem lineStarts_warningLines (hr : Settled o r) :
    ∀ c ∈ (warningLines r).flatMap fun l => lineStarts l.toList, c = 'W' := by
  intro c hc
  obtain ⟨l, hl, hc⟩ := List.mem_flatMap.1 hc
  obtain ⟨w, hw, rfl⟩ := List.mem_map.1 hl
  rw [lineStarts_label (by decide) (by decide : _ = some 'W') (hr.warnings w hw)] at hc
  exact List.mem_singleton.1 hc

/-- A failure is told by its reason, after the warnings. -/
theorem told_of_failure (hr : Settled o r) (hsuccess : r.outcome.success = false) :
    (asLines o r).ending = .returned 1 ∧ Told (asLines o r) := by
  have heq : asLines o r = returned 1 (warningLines r ++ [errorLine Parsed.failed]) := by
    rw [asLines, hsuccess, (hr.failed hsuccess).1]
    rfl
  have hstarts : 'O' ∉ lineStarts (asLines o r).output.toList := by
    rw [heq, returned, CommandResult.lineStarts_lines, List.flatMap_append, List.mem_append,
      List.flatMap_singleton, errorLine,
      lineStarts_label (by decide) (by decide : _ = some 'E') oneLine_failed]
    rintro (hwarning | herror)
    · exact absurd (lineStarts_warningLines hr _ hwarning) (by decide)
    · exact absurd (List.mem_singleton.1 herror) (by decide)
  have herror : (asLines o r).Prints "ERROR:" := by
    rw [heq]
    exact prints_label (List.mem_append_right _ List.mem_cons_self) (by decide) oneLine_failed
      (by decide)
  have hending : (asLines o r).ending = .returned 1 := by rw [heq]; rfl
  exact ⟨hending, told_of_returned_one hending herror hstarts⟩

/-- What is printed of an annotated formula before its value. -/
def opening (o : Options) (r : Report) : List String :=
  warningLines r ++ ["OK: " ++ r.outcome.source] ++
    if o.printExpr then [(Json.ofOption Expr.toJson r.expr).pretty] else []

theorem asLines_of_success (hsuccess : r.outcome.success = true) :
    asLines o r = match r.value.mapM valueText with
      | .error why => returned 1 (opening o r ++ [errorLine why])
      | .ok value => returned 0 (opening o r ++ (value.map fun s => "VALUE: " ++ s).toList) := by
  rw [asLines, hsuccess]
  rfl

theorem prints_ok_of_success (hr : Settled o r) (hsuccess : r.outcome.success = true)
    (more : List String) (e : Ending) :
    (⟨CommandResult.lines (opening o r ++ more), e⟩ : CommandResult).Prints "OK:" := by
  have hmem : "OK: " ++ r.outcome.source ∈ opening o r ++ more := by simp [opening]
  exact prints_label hmem (by decide) (hr.annotated hsuccess).1 (by decide)

theorem lineStarts_opening (hr : Settled o r) (hsuccess : r.outcome.success = true) :
    'E' ∉ (opening o r).flatMap fun l => lineStarts l.toList := by
  obtain ⟨hsource, e, he⟩ := hr.annotated hsuccess
  have hlabel := lineStarts_label (by decide) (by decide : "OK: ".toList.head? = some 'O') hsource
  rw [opening, List.flatMap_append, List.flatMap_append, List.flatMap_singleton, hlabel,
    List.mem_append, List.mem_append]
  rintro ((hwarning | hok) | hexpr)
  · exact absurd (lineStarts_warningLines hr _ hwarning) (by decide)
  · exact absurd (List.mem_singleton.1 hok) (by decide)
  · split at hexpr
    · obtain ⟨fs, hfs⟩ := e.exists_toJson_eq_obj
      have hplain := e.plain_toJson
      rw [List.flatMap_singleton, he, Json.ofOption, hfs] at hexpr
      rcases Json.mem_lineStarts_pretty (hfs ▸ hplain) hexpr with hbrace | hmark
      · exact absurd hbrace (by decide)
      · exact absurd hmark (by decide)
    · exact absurd hexpr List.not_mem_nil

/-- A formula that is annotated is told so when its value can be written. -/
theorem told_of_writable (hr : Settled o r) (hsuccess : r.outcome.success = true)
    (hvalue : ∀ x, r.value = some x → Numeral.Writable x) :
    (asLines o r).ending = .returned 0 ∧ Told (asLines o r) := by
  obtain ⟨t, ht, hline⟩ := mapM_valueText_of_writable hvalue
  have heq : asLines o r =
      returned 0 (opening o r ++ (t.map fun s => "VALUE: " ++ s).toList) := by
    rw [asLines_of_success hsuccess, ht]
  have hstarts : 'E' ∉ lineStarts (asLines o r).output.toList := by
    rw [heq, returned, CommandResult.lineStarts_lines, List.flatMap_append, List.mem_append]
    rintro (hopening | hmore)
    · exact lineStarts_opening hr hsuccess hopening
    · cases t with
      | none => exact absurd hmore List.not_mem_nil
      | some s =>
        have hlabel : lineStarts ("VALUE: " ++ s).toList = ['V'] :=
          lineStarts_label (by decide) (by decide) (hline s rfl)
        rw [Option.map_some, Option.toList_some, List.flatMap_singleton, hlabel] at hmore
        exact absurd (List.mem_singleton.1 hmore) (by decide)
  have hok : (asLines o r).Prints "OK:" := by
    rw [heq]
    exact prints_ok_of_success hr hsuccess _ _
  have hending : (asLines o r).ending = .returned 0 := by rw [heq]; rfl
  exact ⟨hending, told_of_returned_zero hending hok hstarts⟩

/-- When its value cannot be written, success has been told before the status is one. -/
theorem not_told_of_not_writable (hr : Settled o r) (hsuccess : r.outcome.success = true) {x : Rat}
    (hx : r.value = some x) (hlong : ¬Numeral.Writable x) :
    (asLines o r).ending = .returned 1 ∧ (asLines o r).Prints "OK:" ∧
      (asLines o r).Prints "ERROR:" := by
  have heq : asLines o r = returned 1 (opening o r ++ [errorLine Numeral.tooLong]) := by
    rw [asLines_of_success hsuccess, hx, mapM_valueText_of_not_writable hlong]
  rw [heq]
  refine ⟨rfl, prints_ok_of_success hr hsuccess _ _, ?_⟩
  exact prints_label (List.mem_append_right _ List.mem_cons_self) (by decide) oneLine_tooLong
    (by decide)

/-! ## Objects -/

/-- What is printed is one object and nothing else, and its success field is true exactly when
the status is zero. -/
def OneObject (r : CommandResult) : Prop :=
  ∃ fs, Json.read r.output = .ok (.obj fs) ∧
    (r.ending = .returned 0 ↔ Fields.get? "success" fs = some (.bool true))

theorem plain_ofString? (t : Option String) : (Json.ofString? t).Plain := by
  cases t with
  | none => exact .null
  | some s => exact .str s

theorem plain_ofExpr (e : Option Expr) : (Json.ofOption Expr.toJson e).Plain := by
  cases e with
  | none => exact .null
  | some e => exact e.plain_toJson

theorem plain_jsonObject (o : Options) (r : Report) (t : Option String) :
    (jsonObject o r (.ofString? t)).Plain := by
  have hwarnings : (Json.arr (r.warnings.map .str)).Plain := .arr (by simp [Json.Plain.str])
  refine .obj ?_ ?_
  · cases o.printExpr <;> cases o.evaluate <;> simp [Instrumented.fields]
  · cases o.printExpr <;> cases o.evaluate <;>
      simp [Instrumented.fields, Json.Plain.str, Json.Plain.bool, plain_ofString?, plain_ofExpr,
        hwarnings]

theorem integers_jsonObject (o : Options) (r : Report) (t : Option String) :
    (jsonObject o r (.ofString? t)).integers = [] := by
  have hvalue : (Json.ofString? t).integers = [] := by cases t <;> rfl
  have hreason : (Json.ofString? r.outcome.reason).integers = [] := by
    cases r.outcome.reason <;> rfl
  have hexpr : (Json.ofOption Expr.toJson r.expr).integers = [] := by
    cases r.expr with
    | none => rfl
    | some e => exact e.integers_toJson
  have hwarnings : ∀ ws : List String, Json.itemIntegers (ws.map .str) = [] := by
    intro ws
    induction ws with
    | nil => rfl
    | cons w ws ih => exact ih
  cases hprint : o.printExpr <;> cases heval : o.evaluate <;>
    simp [jsonObject, Instrumented.fields, Json.integers, Json.fieldIntegers, hprint, heval, hvalue,
      hreason, hexpr, hwarnings]

/-- The command prints one object when the value can be written. -/
theorem oneObject_of_writable (o : Options)
    (hvalue : ∀ x, r.value = some x → Numeral.Writable x) :
    (asJson o r).ending = .returned (if r.outcome.success then 0 else 1) ∧
      OneObject (asJson o r) := by
  obtain ⟨t, ht, -⟩ := mapM_valueText_of_writable hvalue
  obtain ⟨fs, hfs, hsuccess⟩ : ∃ fs, jsonObject o r (.ofString? t) = .obj fs ∧
      ("success", .bool r.outcome.success) ∈ fs := ⟨_, rfl, by simp [Instrumented.fields]⟩
  obtain ⟨gs, hgs, hperm⟩ := Json.exists_sorted_obj fs
  have hplain := plain_jsonObject o r t
  have hsorted := Json.plain_sorted hplain
  have hshort : ∀ i ∈ (Json.obj gs).integers, Json.IsShort i := by
    intro i hi
    rw [← hgs, ← hfs] at hi
    have hmem := Json.integers_sorted_subset hplain hi
    rw [integers_jsonObject] at hmem
    exact absurd hmem List.not_mem_nil
  rw [hfs, hgs] at hsorted
  have heq : asJson o r = returned (if r.outcome.success then 0 else 1)
      [(Json.obj gs).write Json.spaced] := by
    rw [asJson, ht]
    dsimp only
    rw [hfs, hgs]
  have hread :
      Json.read (CommandResult.lines [(Json.obj gs).write Json.spaced]) = .ok (.obj gs) := by
    have hline : CommandResult.lines [(Json.obj gs).write Json.spaced] =
        String.ofList (Json.chars (Json.padded [' '] [' ']) (.obj gs) ++ ['\n']) := by
      rw [← String.toList_inj, CommandResult.toList_lines_cons, String.toList_ofList, Json.write,
        String.toList_ofList]
      rfl
    rw [hline]
    exact Json.read_written rfl rfl hsorted hshort rfl
  have hget : Fields.get? "success" gs = some (.bool r.outcome.success) := by
    cases hsorted with
    | obj hkeys _ =>
      rw [Fields.get?_eq_some_iff_of_nodup hkeys, hperm.mem_iff]
      exact List.mem_map.2 ⟨_, hsuccess, rfl⟩
  rw [heq]
  refine ⟨rfl, gs, hread, ?_⟩
  rw [hget]
  cases r.outcome.success <;> simp [returned]

/-- When the value cannot be written, no object is printed. -/
theorem not_oneObject_of_not_writable (o : Options) {x : Rat} (hx : r.value = some x)
    (hlong : ¬Numeral.Writable x) :
    (asJson o r).ending = .returned 1 ∧ ¬OneObject (asJson o r) := by
  have heq : asJson o r = returned 1 [errorLine Numeral.tooLong] := by
    rw [asJson, hx, mapM_valueText_of_not_writable hlong]
  have hread : (Json.read (CommandResult.lines [errorLine Numeral.tooLong])).isOk = false := by
    decide +kernel
  rw [heq]
  refine ⟨rfl, ?_⟩
  rintro ⟨fs, hfs, -⟩
  rw [returned] at hfs
  rw [hfs] at hread
  exact Bool.false_ne_true hread.symm

/-! ## One outcome -/

/-- What the command promises: it returns zero or one, and what it prints tells which. -/
structure Consistent (o : Options) (r : CommandResult) : Prop where
  returned : r.ending = .returned 0 ∨ r.ending = .returned 1
  object : o.asJson = true → OneObject r
  lines : o.asJson = false → Told r

theorem consistent_asJson_iff (r : Report) (hjson : o.asJson = true) :
    Consistent o (asJson o r) ↔ ∀ x, r.value = some x → Numeral.Writable x := by
  have hnot : o.asJson ≠ false := by rw [hjson]; exact Bool.false_ne_true.symm
  constructor
  · intro h x hx
    by_contra hlong
    exact (not_oneObject_of_not_writable o hx hlong).2 (h.object hjson)
  · intro hvalue
    obtain ⟨hending, hobject⟩ := oneObject_of_writable o hvalue
    refine ⟨?_, fun _ => hobject, fun h => absurd h hnot⟩
    rw [hending]
    cases r.outcome.success <;> simp

theorem consistent_asLines_iff (hr : Settled o r) (hjson : o.asJson = false) :
    Consistent o (asLines o r) ↔ ∀ x, r.value = some x → Numeral.Writable x := by
  have hnot : o.asJson ≠ true := by rw [hjson]; exact Bool.false_ne_true
  cases hsuccess : r.outcome.success with
  | true =>
    constructor
    · intro h x hx
      by_contra hlong
      obtain ⟨hending, hok, -⟩ := not_told_of_not_writable hr hsuccess hx hlong
      have hzero := (h.lines hjson).ok.1 hok
      rw [hending] at hzero
      cases hzero
    · intro hvalue
      obtain ⟨hending, htold⟩ := told_of_writable hr hsuccess hvalue
      exact ⟨.inl hending, fun h => absurd h hnot, fun _ => htold⟩
  | false =>
    obtain ⟨hending, htold⟩ := told_of_failure hr hsuccess
    have hnone := (hr.failed hsuccess).2
    refine ⟨fun _ x hx => ?_, fun _ => ⟨.inr hending, fun h => absurd h hnot, fun _ => htold⟩⟩
    rw [hnone] at hx
    cases hx

theorem returned_asJson (o : Options) (r : Report) :
    (asJson o r).ending = .returned 0 ∨ (asJson o r).ending = .returned 1 := by
  unfold asJson
  split
  · exact .inr rfl
  · cases r.outcome.success
    · exact .inr rfl
    · exact .inl rfl

theorem returned_asLines (o : Options) (r : Report) :
    (asLines o r).ending = .returned 0 ∨ (asLines o r).ending = .returned 1 := by
  unfold asLines
  split
  · dsimp only
    split
    · exact .inr rfl
    · exact .inl rfl
  · exact .inr rfl

theorem returned_runWith (o : Options) :
    (runWith o).ending = .returned 0 ∨ (runWith o).ending = .returned 1 := by
  unfold runWith
  split
  · exact .inr rfl
  · split
    · exact returned_asJson _ _
    · exact returned_asLines _ _

/-- The command keeps its promise exactly when the value that is asked for can be written. -/
theorem consistent_runWith_iff (o : Options) :
    Consistent o (runWith o) ↔ ∀ x, o.IsValue x → Numeral.Writable x := by
  obtain ⟨r, hreport, hr⟩ := exists_report o
  simp only [← hr.value]
  rw [runWith, hreport]
  dsimp only
  cases hjson : o.asJson with
  | true => exact consistent_asJson_iff r hjson
  | false => exact consistent_asLines_iff hr hjson

/-! ## Command lines -/

def Options.flags (o : Options) : List OptionSpec :=
  (if o.printExpr then [printExprOption] else []) ++
    (if o.evaluate then [evaluateOption] else []) ++ if o.asJson then [jsonOption] else []

/-- The command line that gives a formula and its options.  The formula stands behind the
separator, since it may begin with a dash. -/
def Options.arguments (o : Options) : List String :=
  o.flags.map (·.name) ++ [Argument.separator, o.formula]

theorem classify_flag : ∀ f ∈ optionSpecs, f.name ≠ Argument.separator ∧
    Argument.classify (Argument.helpOption :: optionSpecs) f.name = .ok (.option f none) := by
  decide +kernel

theorem classifyAll_flags {fs : List OptionSpec} (h : ∀ f ∈ fs, f ∈ optionSpecs) (s : String) :
    Argument.classifyAll (Argument.helpOption :: optionSpecs)
        (fs.map (·.name) ++ [Argument.separator, s]) =
      .ok (fs.map (.option · none) ++ [.endOfOptions, .word s]) := by
  induction fs with
  | nil => rfl
  | cons f fs ih =>
    rw [List.forall_mem_cons] at h
    obtain ⟨hname, hclassify⟩ := classify_flag f h.1
    rw [List.map_cons, List.cons_append, Argument.classifyAll, if_neg (by simpa using hname),
      hclassify, ih h.2]
    rfl

theorem collect_flags {fs : List OptionSpec} (h : ∀ f ∈ fs, f ∈ optionSpecs) (s : String) :
    Arguments.collect (fs.map (.option · none) ++ [.endOfOptions, .word s]) =
      .ok ⟨[s], fs.map fun f => (f.name, [])⟩ := by
  have hflag : ∀ f ∈ optionSpecs, f ≠ Argument.helpOption ∧ f.values = 0 := by decide
  induction fs with
  | nil => simp [Arguments.collect, Except.map, Arguments.addWord]
  | cons f fs ih =>
    rw [List.forall_mem_cons] at h
    obtain ⟨hhelp, hvalues⟩ := hflag f h.1
    rw [List.map_cons, List.cons_append, Arguments.collect, if_neg hhelp, hvalues]
    simp only [Arguments.leadingWords, List.drop_zero, ih h.2]
    rfl

/-- Every formula can be given with every choice of the options. -/
theorem ofArguments_arguments (o : Options) : Options.ofArguments o.arguments = .ok o := by
  have hflags : ∀ f ∈ o.flags, f ∈ optionSpecs := by
    obtain ⟨_, p, e, j⟩ := o
    cases p <;> cases e <;> cases j <;> simp [Options.flags, optionSpecs]
  have hparse : Arguments.parse optionSpecs o.arguments =
      .ok ⟨[o.formula], o.flags.map fun f => (f.name, [])⟩ := by
    rw [Arguments.parse, Options.arguments, classifyAll_flags hflags]
    exact collect_flags hflags _
  rw [Options.ofArguments, hparse]
  obtain ⟨_, p, e, j⟩ := o
  cases p <;> cases e <;> cases j <;> rfl

/-- Every formula can be given with every choice of the options.  However it is given, the
command returns zero or one; and what it prints tells which, by one object or by the labels of
its lines, exactly when the exact value that is asked for has a numerator and a denominator that
can be written. -/
theorem consistent_iff_writable (o : Options) : Options.ofArguments o.arguments = .ok o ∧
    ∀ args, Options.ofArguments args = .ok o →
      ((run args).ending = .returned 0 ∨ (run args).ending = .returned 1) ∧
        (Consistent o (run args) ↔ ∀ x, o.IsValue x → Numeral.Writable x) := by
  refine ⟨ofArguments_arguments o, fun args hargs => ?_⟩
  rw [run, hargs]
  exact ⟨returned_runWith o, consistent_runWith_iff o⟩

/-- A sum with a mixed number. -/
def mixedSum : Expr :=
  .binary .add (.mixed "1" "2" "3" none)
    (.binary .divide (.numeral "1" none) (.numeral "3" none) none) none

theorem consistent_mixedSum :
    ∃ o, Options.ofArguments ["--json", "--evaluate", "1 2/3+1/3"] = .ok o ∧
      Consistent o (run ["--json", "--evaluate", "1 2/3+1/3"]) := by
  have hargs : Options.ofArguments ["--json", "--evaluate", "1 2/3+1/3"] =
      .ok ⟨"1 2/3+1/3", false, true, true⟩ := by
    decide +kernel
  have hexpr : (Parsed.ofString "1 2/3+1/3").expr = some mixedSum := by decide +kernel
  have hvalue : mixedSum.value = .ok (.of 2) := by decide +kernel
  refine ⟨_, hargs, (((consistent_iff_writable _).2 _ hargs).2).2 ?_⟩
  rintro x ⟨-, e, he, hx⟩
  obtain rfl : mixedSum = e := Option.some.inj (hexpr.symm.trans he)
  obtain rfl : 2 = x := by
    have hof := hvalue.symm.trans hx.value_eq
    rw [Except.ok.injEq, Valuation.of, Valuation.of, Valuation.mk.injEq, Option.some.injEq] at hof
    exact hof.1
  exact ⟨by decide +kernel, by decide +kernel⟩

/-! ## Values that are too long -/

/-- A number times itself. -/
def square (n : Nat) : Expr :=
  .binary .multiply (.numeral (Nat.repr n) none) (.numeral (Nat.repr n) none) none

theorem isRun_repr (n : Nat) : Token.isRun (Nat.repr n).toList = true := by
  have hdigits : ∀ c ∈ (Nat.repr n).toList, Text.isDigit c = true := fun c hc =>
    Text.isDigit_of_isAsciiDigit (Text.isAsciiDigit_of_isDigit (Json.isDigit_of_mem_repr hc))
  cases heq : (Nat.repr n).toList with
  | nil =>
    rw [Nat.toList_repr] at heq
    exact absurd heq Nat.toDigits_ne_nil
  | cons c cs =>
    rw [heq, List.forall_mem_cons] at hdigits
    rw [Token.isRun, hdigits.1, Bool.true_and, List.all_eq_true]
    intro d hd
    rw [Token.isNumeralChar, hdigits.2 d hd, Bool.true_or]

theorem expr_square (n : Nat) :
    (Parsed.ofString (Nat.repr n ++ " \\cdot " ++ Nat.repr n)).expr = some (square n) := by
  have hsigned := Expr.isSignedRun_of_isRun (isRun_repr n)
  have hspelled : (square n).spelled = true := by
    rw [square, Expr.spelled, Expr.spelled, hsigned]
    rfl
  have hcontent : Annotations.stripText (square n).annotated =
      Nat.repr n ++ " \\cdot " ++ Nat.repr n := by
    have hsign : (Markup.ofString BinaryOperation.multiply.display).content = "\\cdot".toList := by
      decide
    have hpieces : (square n).markup.content = (Nat.repr n).toList ++ ([' '] ++
        ((Markup.ofString BinaryOperation.multiply.display).content ++
          ([' '] ++ (Nat.repr n).toList))) := rfl
    rw [Expr.stripText_annotated (Expr.plainTexts_of_spelled hspelled), hpieces, hsign,
      ← String.toList_inj, String.toList_ofList]
    simp
  rw [← hcontent, Parsed.ofString_annotated hspelled rfl]
  rfl

theorem denotes_square {n : Nat} (h : n < 10 ^ Numeral.maxDigits) :
    (square n).Denotes ((n * n : Nat) : Rat) := by
  rw [Nat.cast_mul]
  exact .multiply (.numeral (Numeral.rational?_repr h)) (.numeral (Numeral.rational?_repr h))

theorem not_writable_of_le {n : Nat} (h : 10 ^ Numeral.maxDigits ≤ n) :
    ¬Numeral.Writable (n : Rat) := by
  intro hwritable
  have hnum := hwritable.num
  rw [Rat.num_natCast, Int.natAbs_natCast] at hnum
  exact absurd hnum (Nat.not_lt.2 h)

/-- With a square that is too long to be written the command contradicts itself. -/
theorem not_consistent_square {o : Options} {n : Nat} (hevaluate : o.evaluate = true)
    (hformula : o.formula = Nat.repr n ++ " \\cdot " ++ Nat.repr n)
    (hn : n < 10 ^ Numeral.maxDigits) (hlong : 10 ^ Numeral.maxDigits ≤ n * n) :
    ¬Consistent o (runWith o) := by
  rw [consistent_runWith_iff]
  intro h
  refine not_writable_of_le hlong (h _ ⟨hevaluate, _, ?_, denotes_square hn⟩)
  rw [hformula, expr_square]

/-- The square of a number of 2151 digits is annotated, and then refused. -/
theorem not_forall_consistent : ¬ ∀ (o : Options) (args : List String),
    Options.ofArguments args = .ok o → Consistent o (run args) := by
  intro h
  obtain ⟨k, htwice, hlt⟩ : ∃ k, Numeral.maxDigits = k + k ∧ k < Numeral.maxDigits :=
    ⟨2150, rfl, by decide⟩
  have hhalf : 10 ^ k < 10 ^ Numeral.maxDigits := Nat.pow_lt_pow_right (by decide) hlt
  have hsquare : 10 ^ Numeral.maxDigits ≤ 10 ^ k * 10 ^ k := by
    rw [htwice, Nat.pow_add]
  let o : Options := ⟨Nat.repr (10 ^ k) ++ " \\cdot " ++ Nat.repr (10 ^ k), false, true, false⟩
  have hargs := ofArguments_arguments o
  have hkept := h o o.arguments hargs
  rw [run, hargs] at hkept
  exact not_consistent_square rfl rfl hhalf hsquare hkept

end InstrumentCommand
end FormulaMap

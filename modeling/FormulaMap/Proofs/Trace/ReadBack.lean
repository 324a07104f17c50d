/-
What is written to a log is read from it.

A log that is written in one go or in several holds one line for each value, and each
line is read back.  The reader, though, ends a line at every boundary that Unicode knows,
and the writer leaves three of them as they are: a value with one of these in a text or a
key is cut in two.  So a log is read back exactly when no value has one
(`readsBack_iff`).
-/
import FormulaMap.Proofs.Json.RoundTrip
import FormulaMap.Proofs.Text.Lines
import FormulaMap.Proofs.Trace.Writing
import FormulaMap.Trace.Rebuild

namespace FormulaMap

namespace Json

/-- A log can be written with the value and is read back: its integers are short enough,
and no text or key has a line boundary that is written as it is. -/
structure Traceable (v : Json) : Prop where
  short : ∀ i ∈ v.integers, IsShort i
  oneLine : ∀ s ∈ v.texts, ∀ c ∈ s.toList, c ∉ Text.wideBoundaries

/-- `Traceable` as a computation on the integers and the texts. -/
def isTraceable (v : Json) : Bool :=
  (v.integers.all fun i => (Numeral.integerText? i).isSome) &&
    v.texts.all fun s => s.toList.all fun c => !Text.wideBoundaries.contains c

theorem isTraceable_iff (v : Json) : v.isTraceable = true ↔ v.Traceable := by
  simp only [isTraceable, Bool.and_eq_true, List.all_eq_true, Bool.not_eq_true',
    ← Bool.not_eq_true, List.contains_iff_mem]
  exact ⟨fun h => ⟨h.1, h.2⟩, fun h => ⟨h.short, h.oneLine⟩⟩

instance : DecidablePred Traceable := fun v => decidable_of_iff _ (isTraceable_iff v)

end Json

/-! ## Lines of values -/

namespace TraceRecord

variable {v : Json}

theorem isLineBoundary_of_mem_chars (hv : v.Plain) {c : Char}
    (hc : c ∈ Json.chars Json.tight v) :
    Text.isLineBoundary c = true ↔ c ∈ Text.wideBoundaries :=
  Text.isLineBoundary_iff (Json.le_toNat_of_mem_chars hv hc)

theorem return_not_mem_chars (hv : v.Plain) : '\r' ∉ Json.chars Json.tight v := by
  intro h
  exact absurd (Json.le_toNat_of_mem_chars hv h) (by decide)

theorem one_le_length_shown_lineChars (hv : v.Plain) : 1 ≤ (Text.shown (lineChars v)).length := by
  obtain ⟨c, cs, heq, hc⟩ := Json.chars_eq_cons _ hv
  refine Text.one_le_length_shown (Json.isBlank_of_opensValue hc) ?_
  rw [lineChars, heq]
  exact List.mem_cons_self

/-- A value without wide boundaries is on one line. -/
theorem shown_lineChars (hv : v.Plain)
    (h : ∀ s ∈ v.texts, ∀ c ∈ s.toList, c ∉ Text.wideBoundaries) :
    Text.shown (lineChars v) = [Json.chars Json.tight v] := by
  have hboundary : ∀ c ∈ Json.chars Json.tight v, Text.isLineBoundary c = false := by
    intro c hc
    rw [Bool.eq_false_iff, Ne, isLineBoundary_of_mem_chars hv hc]
    intro hwide
    obtain ⟨s, hs, hcs⟩ := (Json.mem_chars_iff hv (Text.lt_of_mem_wideBoundaries c hwide)).1 hc
    exact h s hs c hcs hwide
  obtain ⟨c, cs, heq, hc⟩ := Json.chars_eq_cons _ hv
  rw [Text.shown, lineChars, Text.linesFrom_of_no_boundary hboundary, List.reverse_nil,
    List.nil_append, List.filter_cons_of_pos, List.filter_nil]
  rw [heq, List.all_cons, Json.isBlank_of_opensValue hc, Bool.false_and]
  rfl

/-- A value with one in a text or a key is cut. -/
theorem two_le_length_shown_lineChars (hv : v.Plain) {s : String} (hs : s ∈ v.texts) {c : Char}
    (hc : c ∈ s.toList) (hwide : c ∈ Text.wideBoundaries) :
    2 ≤ (Text.shown (lineChars v)).length := by
  have hlarge := Text.lt_of_mem_wideBoundaries c hwide
  have hmem := (Json.mem_chars_iff hv hlarge).2 ⟨s, hs, hc⟩
  have hboundary := (isLineBoundary_of_mem_chars hv hmem).2 hwide
  have hreturn := return_not_mem_chars hv
  obtain ⟨a, m, b, heq, hcm, ha, hb⟩ := Json.exists_between hv hlarge hmem
  obtain ⟨before, after, rfl⟩ := List.append_of_mem hcm
  have hline : lineChars v = (a :: before) ++ c :: (after ++ [b, '\n']) := by
    rw [lineChars, heq]
    simp
  have hbefore : '\r' ∉ a :: before := by
    rw [heq, List.append_assoc, ← List.cons_append] at hreturn
    exact fun h => hreturn (List.mem_append_left _ h)
  have hne : c ≠ '\r' := by
    rintro rfl
    exact absurd hlarge (by decide)
  rw [hline]
  exact Text.two_le_length_shown hboundary hne hbefore ha List.mem_cons_self hb (by simp)

end TraceRecord

namespace Trace

/-- Writing the values in sessions one after another fails nowhere, and reading the log
then gives all of them in order. -/
def ReadsBack (l : Location) (d : Disk) (sessions : List (List Json)) : Prop :=
  ∃ d' text, writeEach l (sessions.map fun vs => vs.map .json) d = (d', none) ∧
    d'.readText l = .ok text ∧ parse text = .ok sessions.flatten

/-! ## Reading -/

theorem parse_ofList (cs : List Char) :
    parse (String.ofList cs) = (Text.shown cs).mapM fun l => Json.read (String.ofList l) := by
  have hblank : ((fun l => !Text.allBlank l) ∘ String.ofList) = fun l => !l.all Text.isBlank := by
    funext l
    simp [Text.allBlank]
  rw [parse, Text.lines, String.toList_ofList, List.filter_map, List.mapM_map, hblank]
  rfl

theorem shown_logChars {vs : List Json} (hplain : ∀ v ∈ vs, v.Plain) :
    Text.shown (logChars vs) = vs.flatMap fun v => Text.shown (TraceRecord.lineChars v) := by
  have hlines := Text.linesFrom_flatMap fun v hv => TraceRecord.return_not_mem_chars (hplain v hv)
  change Text.linesFrom [] (logChars vs) = _ at hlines
  rw [Text.shown, hlines, List.filter_flatMap]
  rfl

theorem return_not_mem_logChars {vs : List Json} (hplain : ∀ v ∈ vs, v.Plain) :
    '\r' ∉ logChars vs := by
  intro h
  obtain ⟨v, hv, hmem⟩ := List.mem_flatMap.1 h
  rcases List.mem_append.1 hmem with hchars | hfeed
  · exact TraceRecord.return_not_mem_chars (hplain v hv) hchars
  · exact absurd (List.mem_singleton.1 hfeed) (by decide)

theorem length_of_mapM_eq_ok {α β ε : Type} {f : α → Except ε β} {xs : List α} {ys : List β}
    (h : xs.mapM f = .ok ys) : ys.length = xs.length := by
  induction xs generalizing ys with
  | nil =>
    cases h
    rfl
  | cons x xs ih =>
    rw [List.mapM_cons] at h
    cases hx : f x with
    | error e =>
      rw [hx] at h
      cases h
    | ok y =>
      cases hxs : xs.mapM f with
      | error e =>
        rw [hx, hxs] at h
        cases h
      | ok zs =>
        rw [hx, hxs] at h
        cases h
        rw [List.length_cons, List.length_cons, ih hxs]

theorem length_le_length_flatMap {α β : Type} {f : α → List β} {xs : List α}
    (hone : ∀ x ∈ xs, 1 ≤ (f x).length) : xs.length ≤ (xs.flatMap f).length := by
  induction xs with
  | nil => exact Nat.le_refl 0
  | cons x xs ih =>
    rw [List.forall_mem_cons] at hone
    have := ih hone.2
    rw [List.flatMap_cons, List.length_append, List.length_cons]
    omega

theorem length_eq_one_of_flatMap {α β : Type} {f : α → List β} {xs : List α}
    (hone : ∀ x ∈ xs, 1 ≤ (f x).length) (h : (xs.flatMap f).length = xs.length) :
    ∀ x ∈ xs, (f x).length = 1 := by
  induction xs with
  | nil => exact fun _ hx => absurd hx List.not_mem_nil
  | cons x xs ih =>
    rw [List.forall_mem_cons] at hone
    rw [List.flatMap_cons, List.length_append, List.length_cons] at h
    have hrest := length_le_length_flatMap hone.2
    exact List.forall_mem_cons.2 ⟨by omega, ih hone.2 (by omega)⟩

theorem parse_logChars_iff {vs : List Json} (hplain : ∀ v ∈ vs, v.Plain)
    (hshort : ∀ v ∈ vs, ∀ i ∈ v.integers, Json.IsShort i) :
    parse (String.ofList (logChars vs)) = .ok vs ↔
      ∀ v ∈ vs, ∀ s ∈ v.texts, ∀ c ∈ s.toList, c ∉ Text.wideBoundaries := by
  rw [parse_ofList, shown_logChars hplain]
  constructor
  · intro hparse v hv s hs c hc hwide
    have hone := length_eq_one_of_flatMap
      (fun v hv => TraceRecord.one_le_length_shown_lineChars (hplain v hv))
      (length_of_mapM_eq_ok hparse).symm v hv
    have htwo := TraceRecord.two_le_length_shown_lineChars (hplain v hv) hs hc hwide
    omega
  · intro h
    induction vs with
    | nil => rfl
    | cons v vs ih =>
      rw [List.forall_mem_cons] at hplain hshort h
      rw [List.flatMap_cons, TraceRecord.shown_lineChars hplain.1 h.1, List.singleton_append,
        List.mapM_cons, ih hplain.2 hshort.2 h.2]
      change (do
        let w ← Json.read (v.write Json.tight)
        let ws ← Except.ok vs
        pure (w :: ws)) = _
      rw [Json.read_write hplain.1 hshort.1]
      rfl

/-! ## Writing and reading -/

variable {l : Location} {d d' : Disk} {s : Stream}

/-- Values that are short enough are written, and the file then has their lines. -/
theorem exists_written (h : d.Holds l "") {sessions : List (List Json)}
    (hplain : ∀ v ∈ sessions.flatten, v.Plain)
    (hshort : ∀ v ∈ sessions.flatten, ∀ i ∈ v.integers, Json.IsShort i) :
    ∃ d', writeEach l (sessions.map fun vs => vs.map .json) d = (d', none) ∧
      d'.readText l = .ok (String.ofList (logChars sessions.flatten)) := by
  obtain ⟨d', hwrite, hholds⟩ := writeEach_of_short h hshort
  refine ⟨d', hwrite, ?_⟩
  rw [hholds.readText, String.empty_append, String.toList_ofList,
    Text.unifyLineEnds_of_no_return (return_not_mem_logChars hplain)]

theorem readsBack_iff_of_holds (h : d.Holds l "") {sessions : List (List Json)}
    (hplain : ∀ v ∈ sessions.flatten, v.Plain) :
    ReadsBack l d sessions ↔ ∀ v ∈ sessions.flatten, v.Traceable := by
  constructor
  · rintro ⟨d₁, text, hwrite, htext, hparse⟩
    have hshort : ∀ v ∈ sessions.flatten, ∀ i ∈ v.integers, Json.IsShort i := by
      intro v hv i hi
      by_contra hlong
      exact writeEach_of_long hv hi hlong l d (congrArg (·.2) hwrite)
    obtain ⟨d₂, hwrite', htext'⟩ := exists_written h hplain hshort
    obtain rfl : d₂ = d₁ := congrArg (·.1) (hwrite'.symm.trans hwrite)
    obtain rfl : _ = text := Except.ok.inj (htext'.symm.trans htext)
    have honeLine := (parse_logChars_iff hplain hshort).1 hparse
    exact fun v hv => ⟨hshort v hv, honeLine v hv⟩
  · intro htraceable
    have hshort : ∀ v ∈ sessions.flatten, ∀ i ∈ v.integers, Json.IsShort i :=
      fun v hv => (htraceable v hv).short
    obtain ⟨d₁, hwrite, htext⟩ := exists_written h hplain hshort
    refine ⟨d₁, _, hwrite, htext, ?_⟩
    exact (parse_logChars_iff hplain hshort).2 fun v hv => (htraceable v hv).oneLine

end Trace

/-! ## Stamps -/

namespace Stamp

theorem all_padded (width n : Nat) : (Expansion.padded width n).all Json.isPrintable = true := by
  refine List.all_eq_true.2 fun c hc => ?_
  rcases List.mem_append.1 hc with hzero | hdigit
  · rw [(List.mem_replicate.1 hzero).2]
    decide
  · exact Json.isPrintable_of_mem_repr hdigit

theorem all_twoDigits (n : Nat) : (twoDigits n).toList.all Json.isPrintable = true := by
  rw [twoDigits, String.toList_ofList]
  exact all_padded 2 n

theorem all_fractionText (micros : Nat) :
    (fractionText micros).toList.all Json.isPrintable = true := by
  unfold fractionText
  split
  · decide
  · have hpoint : ".".toList.all Json.isPrintable = true := by decide
    simp only [String.toList_append, String.toList_ofList, List.all_append, all_padded, hpoint,
      Bool.and_self]

/-- A stamp is written in ASCII. -/
theorem all_isPrintable (random micros : Nat) :
    (ofNumbers random micros).id.toList.all Json.isPrintable = true ∧
      (ofNumbers random micros).time.toList.all Json.isPrintable = true := by
  have hvariant := Json.isPrintable_digitChar (8 + random / Nat.pow 2 60 % 4) (by omega)
  have hmarks : Json.isPrintable '4' = true ∧ "-".toList.all Json.isPrintable = true ∧
      "T".toList.all Json.isPrintable = true ∧ ":".toList.all Json.isPrintable = true ∧
      "Z".toList.all Json.isPrintable = true := by
    decide
  constructor
  · simp only [ofNumbers, String.toList_ofList, List.all_append, List.all_cons, Json.all_hex, hvariant,
      hmarks, Bool.and_self]
  · simp only [ofNumbers, timeText, dateText, clockText, String.toList_append,
      String.toList_ofList, List.all_append, all_padded, all_twoDigits, all_fractionText, hmarks,
      Bool.and_self]

end Stamp

/-! ## Requests -/

namespace Trace

/-- The event of a request: what a session records first for a formula. -/
def request (generation : Nat) (formula : String) (s : Stamp) : Json :=
  (LogEntry.event ⟨generation, .requested formula⟩).toJson s

theorem request_eq (generation : Nat) (formula : String) (s : Stamp) :
    request generation formula s =
      .obj [("event_id", .str s.id), ("ts", .str s.time), ("kind", .str "request"),
        ("message", .str "rebuild requested"), ("data", .obj [("latex", .str formula)]),
        ("refs", .null), ("generation", .int generation)] := rfl

theorem plain_request (generation : Nat) (formula : String) (s : Stamp) :
    (request generation formula s).Plain := by
  have hdata : (Json.obj [("latex", .str formula)]).Plain :=
    .obj (by simp) (List.forall_mem_singleton.2 (.str formula))
  rw [request_eq]
  refine .obj ?_ ?_
  · simp only [List.map_cons, List.map_nil]
    decide
  · simp only [List.forall_mem_cons]
    exact ⟨.str _, .str _, .str _, .str _, hdata, .null, .int _, fun _ h => absurd h List.not_mem_nil⟩

theorem traceable_request_iff {generation : Nat} (hshort : Json.IsShort generation)
    (formula : String) (random micros : Nat) :
    (request generation formula (Stamp.ofNumbers random micros)).Traceable ↔
      ∀ c ∈ formula.toList, c ∉ Text.wideBoundaries := by
  have htexts : (request generation formula (Stamp.ofNumbers random micros)).texts =
      ["event_id", (Stamp.ofNumbers random micros).id, "ts", (Stamp.ofNumbers random micros).time,
        "kind", "request", "message", "rebuild requested", "data", "latex", formula, "refs",
        "generation"] := rfl
  have hintegers : (request generation formula (Stamp.ofNumbers random micros)).integers =
      [(generation : Int)] := rfl
  have hnarrow : ∀ s : String, s.toList.all Json.isPrintable = true →
      ∀ c ∈ s.toList, c ∉ Text.wideBoundaries := by
    intro s hs c hc hwide
    have := (Json.le_of_isPrintable (List.all_eq_true.1 hs c hc)).2
    have := Text.lt_of_mem_wideBoundaries c hwide
    omega
  obtain ⟨hid, htime⟩ := Stamp.all_isPrintable random micros
  constructor
  · intro h
    exact h.oneLine formula (by simp [htexts])
  · intro h
    refine ⟨?_, ?_⟩
    · rw [hintegers]
      exact List.forall_mem_singleton.2 hshort
    · rw [htexts]
      simp only [List.forall_mem_cons]
      exact ⟨hnarrow _ (by decide), hnarrow _ hid, hnarrow _ (by decide), hnarrow _ htime,
        hnarrow _ (by decide), hnarrow _ (by decide), hnarrow _ (by decide), hnarrow _ (by decide),
        hnarrow _ (by decide), hnarrow _ (by decide), h, hnarrow _ (by decide),
        hnarrow _ (by decide), fun _ h => absurd h List.not_mem_nil⟩

/-- In a log that starts empty, values made of texts, integers, truth values, lists and
objects are read back exactly when no text or key of theirs has a next line character, a
line separator or a paragraph separator and no integer is too long to be written, however
many times the log was opened for them.  For the event of a request this is up to the
formula alone. -/
theorem readsBack_iff {l : Location} {d d' : Disk} {s : Stream}
    (hopen : Stream.openAt l d = .ok (d', s)) (hempty : d'.entry? l = some (.file "")) :
    (∀ sessions : List (List Json), sessions ≠ [] → (∀ v ∈ sessions.flatten, v.Plain) →
      (ReadsBack l d sessions ↔ ∀ v ∈ sessions.flatten, v.Traceable)) ∧
    ∀ (generation : Nat) (formula : String) (random micros : Nat), Json.IsShort generation →
      (ReadsBack l d [[request generation formula (Stamp.ofNumbers random micros)]] ↔
        ∀ c ∈ formula.toList, c ∉ Text.wideBoundaries) := by
  obtain ⟨hholds, -⟩ := Disk.holds_of_openAt hopen hempty
  have hsessions : ∀ sessions : List (List Json), sessions ≠ [] →
      (∀ v ∈ sessions.flatten, v.Plain) →
      (ReadsBack l d sessions ↔ ∀ v ∈ sessions.flatten, v.Traceable) := by
    intro sessions hsome hplain
    rw [← readsBack_iff_of_holds hholds hplain]
    cases sessions with
    | nil => exact absurd rfl hsome
    | cons vs sessions =>
      rw [ReadsBack, ReadsBack, List.map_cons, writeEach_of_openAt hopen hempty]
  refine ⟨hsessions, fun generation formula random micros hshort => ?_⟩
  have hplain := plain_request generation formula (Stamp.ofNumbers random micros)
  have hrequest := hsessions [[request generation formula (Stamp.ofNumbers random micros)]]
    (List.cons_ne_nil _ _) (List.forall_mem_singleton.2 hplain)
  rw [hrequest, ← traceable_request_iff hshort formula random micros]
  exact List.forall_mem_singleton

/-- A log in a directory that has to be made. -/
def runLog : Location := ⟨false, ["runs", "trace.jsonl"]⟩

/-- What two runs write, one after the other. -/
def twoRuns : List (List Json) :=
  [[.obj [("kind", .str "note"), ("message", .str "größer\nals ²"), ("refs", .null)],
    request 1 "1\t+ \\alpha" (Stamp.ofNumbers 7 0)],
   [.obj [("kind", .str "build"), ("data", .obj [("atoms", .int (-12)), ("ok", .bool true)]),
     ("refs", .arr [.str "", .int 0])]]]

theorem plain_twoRuns : ∀ v ∈ twoRuns.flatten, v.Plain := by
  have hnote : (Json.obj [("kind", .str "note"), ("message", .str "größer\nals ²"),
      ("refs", .null)]).Plain := by
    refine .obj (by decide) ?_
    simp only [List.forall_mem_cons]
    exact ⟨.str _, .str _, .null, fun _ h => absurd h List.not_mem_nil⟩
  have hdata : (Json.obj [("atoms", .int (-12)), ("ok", .bool true)]).Plain := by
    refine .obj (by decide) ?_
    simp only [List.forall_mem_cons]
    exact ⟨.int _, .bool _, fun _ h => absurd h List.not_mem_nil⟩
  have hrefs : (Json.arr [.str "", .int 0]).Plain := by
    refine .arr ?_
    simp only [List.forall_mem_cons]
    exact ⟨.str _, .int _, fun _ h => absurd h List.not_mem_nil⟩
  have hbuild : (Json.obj [("kind", .str "build"),
      ("data", .obj [("atoms", .int (-12)), ("ok", .bool true)]),
      ("refs", .arr [.str "", .int 0])]).Plain := by
    refine .obj (by decide) ?_
    simp only [List.forall_mem_cons]
    exact ⟨.str _, hdata, hrefs, fun _ h => absurd h List.not_mem_nil⟩
  simp only [twoRuns, List.flatten_cons, List.flatten_nil, List.forall_mem_append,
    List.forall_mem_cons]
  exact ⟨⟨hnote, plain_request _ _ _, fun _ h => absurd h List.not_mem_nil⟩,
    ⟨hbuild, fun _ h => absurd h List.not_mem_nil⟩, fun _ h => absurd h List.not_mem_nil⟩

theorem readsBack_twoRuns :
    ReadsBack runLog [] twoRuns ∧
      ReadsBack runLog [] [[request 1 "2 ÷ 3" (Stamp.ofNumbers 0 0)]] := by
  have hopen : Stream.openAt runLog [] =
      .ok ([(⟨false, ["runs"]⟩, .directory), (runLog, .file "")], ⟨runLog, false, "", 0, 0⟩) := rfl
  have htraceable : ∀ v ∈ twoRuns.flatten, v.Traceable := by decide +kernel
  have hformula : ∀ c ∈ "2 ÷ 3".toList, c ∉ Text.wideBoundaries :=
    Text.forall_mem_of_all (by decide)
  exact ⟨((readsBack_iff hopen rfl).1 twoRuns (by decide) plain_twoRuns).2 htraceable,
    ((readsBack_iff hopen rfl).2 1 "2 ÷ 3" 0 0 (by decide)).2 hformula⟩

/-- A line separator in a formula cuts the event of its request in two. -/
theorem not_forall_readsBack :
    ¬ ∀ (l : Location) (d d' : Disk) (s : Stream), Stream.openAt l d = .ok (d', s) →
      d'.entry? l = some (.file "") → ∀ sessions : List (List Json), sessions ≠ [] →
      (∀ v ∈ sessions.flatten, v.Plain ∧ ∀ i ∈ v.integers, Json.IsShort i) →
      ReadsBack l d sessions := by
  intro h
  have hplain : ∀ v ∈ [[request 1 "1\u2028+2" (Stamp.ofNumbers 0 0)]].flatten, v.Plain :=
    List.forall_mem_singleton.2 (plain_request 1 "1\u2028+2" (Stamp.ofNumbers 0 0))
  have hshort : ∀ i ∈ (request 1 "1\u2028+2" (Stamp.ofNumbers 0 0)).integers, Json.IsShort i :=
    List.forall_mem_singleton.2 (by decide : Json.IsShort 1)
  have hholds : Disk.Holds [(⟨false, ["trace.jsonl"]⟩, .file "")] ⟨false, ["trace.jsonl"]⟩ "" :=
    ⟨List.forall_mem_singleton.2 rfl, rfl⟩
  have hread := h _ _ _ _ hholds.openAt hholds.entry
    [[request 1 "1\u2028+2" (Stamp.ofNumbers 0 0)]] (List.cons_ne_nil _ _)
    fun v hv => ⟨hplain v hv, List.mem_singleton.1 hv ▸ hshort⟩
  have htraceable := (readsBack_iff_of_holds hholds hplain).1 hread
  have hcut : ¬ (request 1 "1\u2028+2" (Stamp.ofNumbers 0 0)).Traceable := by decide +kernel
  exact hcut (htraceable _ List.mem_cons_self)

end Trace
end FormulaMap

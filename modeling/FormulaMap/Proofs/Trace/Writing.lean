/-
What a log holds after it has been written.

A stream on a device with room takes every line, so only a value that has no form stops
the writing.  Where a file can be appended to (`Disk.Holds`), a list of values adds its
lines to the file, and so do several lists that are written one after another.
-/
import FormulaMap.Proofs.Disk.Appending
import FormulaMap.Proofs.Json.Scalars
import FormulaMap.Trace.Log

namespace FormulaMap

/-! ## Streams -/

namespace Stream

/-- The device has room, and nothing waits to be written to it. -/
structure Roomy (s : Stream) : Prop where
  full : s.full = false
  held : s.held = 0

variable {s : Stream}

theorem place_pass (s : Stream) : s.pass.1.place = s.place := by
  unfold Stream.pass
  split
  · split <;> rfl
  · rfl

theorem place_write (s : Stream) (line : String) : (s.write line).1.place = s.place := by
  have hput : ∀ s' : Stream, s'.place = s.place →
      (if lineCapacity ≤ (s'.put line).pending then (s'.put line).pass
        else (s'.put line, true)).1.place = s.place := by
    intro s' hplace
    split
    · exact (place_pass _).trans hplace
    · exact hplace
  unfold Stream.write
  dsimp only
  split
  · split
    · exact hput _ (place_pass s)
    · exact place_pass s
  · exact hput s rfl

theorem place_of_openAt {l : Location} {d d' : Disk} (h : openAt l d = .ok (d', s)) :
    s.place = l := by
  cases hdirs : d.makeDirectories l.parent with
  | error e =>
    rw [openAt, hdirs] at h
    cases h
  | ok d₁ =>
    rw [Disk.openAt_of_makeDirectories hdirs] at h
    cases hfile : d₁.openFile l with
    | error e =>
      rw [hfile] at h
      cases h
    | ok o =>
      rw [hfile] at h
      cases h
      rfl

theorem Roomy.pass (h : s.Roomy) : s.pass = ({ s with pending := 0 }, true) := by
  rw [Stream.pass, h.full, if_neg Bool.false_ne_true]

theorem Roomy.write (h : s.Roomy) (line : String) :
    ∃ s', s.write line = (s', true) ∧ s'.Roomy ∧ s'.text = s.text ++ line ∧ s'.place = s.place := by
  have hput : ∀ s' : Stream, s'.Roomy → s'.text = s.text → s'.place = s.place →
      ∃ s'', (if lineCapacity ≤ (s'.put line).pending then (s'.put line).pass
        else (s'.put line, true)) = (s'', true) ∧ s''.Roomy ∧ s''.text = s.text ++ line ∧
        s''.place = s.place := by
    intro s' hroom htext hplace
    have hline : (s'.put line).Roomy := ⟨hroom.full, hroom.held⟩
    split
    · rw [hline.pass]
      exact ⟨_, rfl, ⟨hroom.full, hroom.held⟩, congrArg (· ++ line) htext, hplace⟩
    · exact ⟨_, rfl, hline, congrArg (· ++ line) htext, hplace⟩
  unfold Stream.write
  by_cases hlong : (decide (0 < s.pending) && decide (lineCapacity ≤ line.utf8ByteSize)) = true
  · rw [if_pos hlong, h.pass]
    exact hput _ ⟨h.full, h.held⟩ rfl rfl
  · rw [if_neg hlong]
    exact hput s h rfl rfl

theorem Roomy.close (h : s.Roomy) (d : Disk) : s.close d = (d.appendText s.place s.text, true) := by
  rw [Stream.close, flush, h.pass]
  simp [h.held]

end Stream

/-! ## Records -/

namespace TraceRecord

variable {v : Json}

/-- The line of a value. -/
def lineChars (v : Json) : List Char := Json.chars Json.tight v ++ ['\n']

theorem line_of_short (h : ∀ i ∈ v.integers, Json.IsShort i) :
    (json v).line = .ok (String.ofList (lineChars v)) := by
  rw [line, if_pos (List.all_eq_true.2 h), lineChars, String.ofList_append]
  rfl

theorem line_of_long {i : Int} (hi : i ∈ v.integers) (h : ¬ Json.IsShort i) :
    (json v).line = .error .longInteger := by
  have hlong : ¬ (v.integers.all fun i => (Numeral.integerText? i).isSome) = true :=
    fun hall => h (List.all_eq_true.1 hall i hi)
  rw [line, if_neg hlong]

end TraceRecord

namespace Trace

theorem close_of_roomy {s : Stream} (h : s.Roomy) (d : Disk) :
    close s d = (d.appendText s.place s.text, none) := by
  rw [close, h.close]
  rfl

/-- The characters of a log with these values. -/
def logChars (vs : List Json) : List Char := vs.flatMap TraceRecord.lineChars

theorem logChars_cons (v : Json) (vs : List Json) :
    logChars (v :: vs) = TraceRecord.lineChars v ++ logChars vs := List.flatMap_cons

theorem logChars_append (vs ws : List Json) : logChars (vs ++ ws) = logChars vs ++ logChars ws :=
  List.flatMap_append

/-- Opens a log once for each list of records, up to the first failure. -/
def writeEach (l : Location) : List (List TraceRecord) → Disk → Disk × Option TraceFault
  | [], d => (d, none)
  | rs :: rss, d =>
    match writeAll l rs d with
    | (d, none) => writeEach l rss d
    | (d, some f) => (d, some f)

section
variable {l : Location} {d : Disk} {t : String} {vs : List Json} {sessions : List (List Json)}

/-! ## Values that can be written -/

theorem extend_of_short {s : Stream} (hroom : s.Roomy)
    (h : ∀ v ∈ vs, ∀ i ∈ v.integers, Json.IsShort i) :
    ∃ s', extend (vs.map .json) s = (s', none) ∧ s'.Roomy ∧
      s'.text = s.text ++ String.ofList (logChars vs) ∧ s'.place = s.place := by
  induction vs generalizing s with
  | nil => exact ⟨s, rfl, hroom, (String.append_empty).symm, rfl⟩
  | cons v vs ih =>
    rw [List.forall_mem_cons] at h
    obtain ⟨s', hwrite, hroom', htext, hplace⟩ :=
      hroom.write (String.ofList (TraceRecord.lineChars v))
    obtain ⟨s'', hextend, hroom'', htext', hplace'⟩ := ih hroom' h.2
    refine ⟨s'', ?_, hroom'', ?_, hplace'.trans hplace⟩
    · rw [List.map_cons, extend, append, TraceRecord.line_of_short h.1]
      simp only [hwrite, if_true, hextend]
    · rw [htext', htext, logChars_cons, String.ofList_append, String.append_assoc]

theorem writeAll_of_short (hholds : d.Holds l t)
    (h : ∀ v ∈ vs, ∀ i ∈ v.integers, Json.IsShort i) :
    ∃ d', writeAll l (vs.map .json) d = (d', none) ∧
      d'.Holds l (t ++ String.ofList (logChars vs)) := by
  have hroom : Stream.Roomy ⟨l, false, "", 0, 0⟩ := ⟨rfl, rfl⟩
  obtain ⟨s, hextend, hroom, htext, hplace⟩ := extend_of_short hroom h
  refine ⟨d.appendText l (String.ofList (logChars vs)), ?_, hholds.appendText _⟩
  rw [writeAll, hholds.openAt]
  simp only [hextend, close_of_roomy hroom, htext, hplace, String.empty_append]

theorem writeEach_of_short (hholds : d.Holds l t)
    (h : ∀ v ∈ sessions.flatten, ∀ i ∈ v.integers, Json.IsShort i) :
    ∃ d', writeEach l (sessions.map fun vs => vs.map .json) d = (d', none) ∧
      d'.Holds l (t ++ String.ofList (logChars sessions.flatten)) := by
  induction sessions generalizing d t with
  | nil =>
    refine ⟨d, rfl, ?_⟩
    rw [List.flatten_nil, logChars, List.flatMap_nil, String.ofList_nil, String.append_empty]
    exact hholds
  | cons vs sessions ih =>
    rw [List.flatten_cons, List.forall_mem_append] at h
    obtain ⟨d₁, hwrite, hholds₁⟩ := writeAll_of_short hholds h.1
    obtain ⟨d₂, heach, hholds₂⟩ := ih hholds₁ h.2
    refine ⟨d₂, ?_, ?_⟩
    · rw [List.map_cons, writeEach, hwrite]
      exact heach
    · rw [List.flatten_cons, logChars_append, String.ofList_append, ← String.append_assoc]
      exact hholds₂

/-! ## Values that cannot -/

theorem extend_of_long {v : Json} (hv : v ∈ vs) {i : Int} (hi : i ∈ v.integers)
    (h : ¬ Json.IsShort i) (s : Stream) : (extend (vs.map .json) s).2 ≠ none := by
  induction vs generalizing s with
  | nil => exact absurd hv List.not_mem_nil
  | cons w vs ih =>
    rw [List.map_cons, extend]
    rcases List.mem_cons.1 hv with rfl | hv
    · rw [append, TraceRecord.line_of_long hi h]
      exact Option.some_ne_none _
    · split
      · exact ih hv _
      · exact Option.some_ne_none _

theorem writeAll_of_long {v : Json} (hv : v ∈ vs) {i : Int} (hi : i ∈ v.integers)
    (h : ¬ Json.IsShort i) (l : Location) (d : Disk) :
    (writeAll l (vs.map .json) d).2 ≠ none := by
  unfold writeAll
  split
  · exact Option.some_ne_none _
  · next d' s _ =>
    have hextend := extend_of_long hv hi h s
    split
    · exact Option.some_ne_none _
    · next heq =>
      rw [heq] at hextend
      exact absurd rfl hextend

theorem writeEach_of_long {v : Json} (hv : v ∈ sessions.flatten) {i : Int} (hi : i ∈ v.integers)
    (h : ¬ Json.IsShort i) (l : Location) (d : Disk) :
    (writeEach l (sessions.map fun vs => vs.map .json) d).2 ≠ none := by
  induction sessions generalizing d with
  | nil => exact absurd hv List.not_mem_nil
  | cons vs sessions ih =>
    rw [List.map_cons, writeEach]
    split
    · next heq =>
      rw [List.flatten_cons, List.mem_append] at hv
      rcases hv with hv | hv
      · have hwrite := writeAll_of_long hv hi h l d
        rw [heq] at hwrite
        exact absurd rfl hwrite
      · exact ih hv _
    · exact Option.some_ne_none _

/-! ## Opening again -/

/-- A log that was opened just before is written as if it had not been. -/
theorem writeEach_of_openAt {d' : Disk} {s : Stream} (hopen : Stream.openAt l d = .ok (d', s))
    (hfile : d'.entry? l = some (.file t)) (rs : List TraceRecord) (rss : List (List TraceRecord)) :
    writeEach l (rs :: rss) d = writeEach l (rs :: rss) d' := by
  obtain ⟨hholds, rfl⟩ := Disk.holds_of_openAt hopen hfile
  have hwrite : writeAll l rs d = writeAll l rs d' := by
    rw [writeAll, writeAll, hopen, hholds.openAt]
  rw [writeEach, writeEach, hwrite]

end

end Trace
end FormulaMap

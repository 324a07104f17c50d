/-
The best-effort log over any sequence of calls.

The log catches every failure of appending but one: a record that is nested too deep for the
writer (`escapes_iff`).  Such an append raises as long as the log is enabled, and leaves the
log as it was, so the calls that follow are as if it had not been made.  Of the others only
those before the first close are attempted, and of these the stream takes the records before
the first failure (`Trace.taken`).  So a sequence of calls comes to appending the attempted
records one after another, and to one close if there is any (`performAll_eq`); appending them
stops like `Trace.extend`, with the failure as the reason (`appendAll_eq`).  A log that is
not enabled stays as it is, apart from being closed.

`fails_once` puts this together: which calls raise, how many records are counted, which lines
the file gains, when there is a reason and how it is reported, and that nothing changes any
more after the first failure or the first close.  A device that takes no bytes gains nothing,
but what waits in the buffers is counted, and is lost when the log is closed.
-/
import FormulaMap.Proofs.Trace.Writing

namespace FormulaMap

/-! ## Failures that are caught -/

theorem BestEffortLog.caughtInAppend_iff {f : TraceFault} :
    caughtInAppend.contains f.kind = true ↔ f ≠ .unwritable .tooDeep := by
  cases f with
  | disk e => exact ⟨fun _ => TraceFault.noConfusion, fun _ => rfl⟩
  | unwritable f => cases f <;> simp [TraceFault.kind, caughtInAppend]

namespace TraceRecord

variable {r : TraceRecord}

/-- Whether there is a line for the record. -/
def isWritable (r : TraceRecord) : Bool := r.line.isOk

/-- Whether the log does not catch that there is none. -/
def escapes (r : TraceRecord) : Bool :=
  match r.line with
  | .ok _ => false
  | .error f => !BestEffortLog.caughtInAppend.contains (TraceFault.unwritable f).kind

theorem line_eq_tooDeep_iff : r.line = .error .tooDeep ↔ r = tooDeep := by
  cases r with
  | json v =>
    rw [line]
    split <;> simp
  | unwritable type => simp [line]
  | tooDeep => simp [line]

theorem escapes_iff : r.escapes = true ↔ r = tooDeep := by
  rw [← line_eq_tooDeep_iff, escapes]
  cases r.line with
  | ok l => exact ⟨fun h => absurd h Bool.false_ne_true, nofun⟩
  | error f =>
    rw [Bool.not_eq_true', Bool.eq_false_iff, Ne, BestEffortLog.caughtInAppend_iff, not_not,
      TraceFault.unwritable.injEq, Except.error.injEq]

/-- What is nested deeper than the writer can go down. -/
theorem ofJson_eq_tooDeep_iff {limit : Nat} {v : Json} :
    ofJson limit v = tooDeep ↔ limit < v.depth := by
  rw [ofJson]
  split
  · next h => exact ⟨nofun, fun h' => absurd h' (Nat.not_lt.2 h)⟩
  · next h => exact ⟨fun _ => Nat.not_le.1 h, fun _ => rfl⟩

end TraceRecord

/-! ## The records that a stream takes -/

namespace Trace

/-- The records before the first one that cannot be appended. -/
def taken : List TraceRecord → Stream → List TraceRecord
  | [], _ => []
  | r :: rs, s =>
    match append r s with
    | (s, none) => r :: taken rs s
    | (_, some _) => []

variable {r : TraceRecord} {rs : List TraceRecord} {s : Stream}

/-- On a device with room a record is appended when it has a line, and then the line is. -/
theorem append_of_roomy (hroom : s.Roomy) :
    (∃ m, r.line = .error m ∧ append r s = (s, some (.unwritable m))) ∨
      ∃ line s', r.line = .ok line ∧ append r s = (s', none) ∧ s'.Roomy ∧
        s'.text = s.text ++ line ∧ s'.place = s.place := by
  cases hline : r.line with
  | error m => exact Or.inl ⟨m, rfl, by rw [append, hline]⟩
  | ok line =>
    obtain ⟨s', hwrite, hroom', htext, hplace⟩ := hroom.write line
    refine Or.inr ⟨line, s', rfl, ?_, hroom', htext, hplace⟩
    rw [append, hline]
    simp only [hwrite, if_true]

/-- Appending fails for want of a line, or of room. -/
theorem fault_of_append {f : TraceFault} (h : (append r s).2 = some f) :
    (∃ e, r.line = .error e ∧ f = .unwritable e) ∨ f = .disk Stream.outOfSpace := by
  rw [append] at h
  cases hline : r.line with
  | error e =>
    rw [hline] at h
    exact Or.inl ⟨e, rfl, (Option.some.inj h).symm⟩
  | ok line =>
    rw [hline] at h
    dsimp only at h
    split at h
    · exact absurd h (Option.some_ne_none f).symm
    · exact Or.inr (Option.some.inj h).symm

theorem fault_eq_tooDeep_iff :
    (append r s).2 = some (.unwritable .tooDeep) ↔ r = .tooDeep := by
  constructor
  · intro h
    rcases fault_of_append h with ⟨e, hline, he⟩ | hdisk
    · obtain rfl := TraceFault.unwritable.inj he
      exact TraceRecord.line_eq_tooDeep_iff.1 hline
    · exact TraceFault.noConfusion hdisk
  · rintro rfl
    rfl

/-- Closing fails for want of room. -/
theorem fault_of_close {d : Disk} {f : TraceFault} (h : (close s d).2 = some f) :
    f = .disk Stream.outOfSpace := by
  rw [close] at h
  dsimp only at h
  split at h
  · exact absurd h (Option.some_ne_none f).symm
  · exact (Option.some.inj h).symm

theorem place_append (r : TraceRecord) (s : Stream) : (append r s).1.place = s.place := by
  rw [append]
  cases r.line with
  | error e => rfl
  | ok line => exact s.place_write line

theorem place_extend (rs : List TraceRecord) (s : Stream) :
    (extend rs s).1.place = s.place := by
  induction rs generalizing s with
  | nil => rfl
  | cons r rs ih =>
    have hplace := place_append r s
    rw [extend]
    split
    · next heq =>
      rw [heq] at hplace
      exact (ih _).trans hplace
    · next heq =>
      rw [heq] at hplace
      exact hplace

/-- What appending records to a device with room comes to. -/
structure Extended (rs : List TraceRecord) (s : Stream) : Prop where
  taken_eq : taken rs s = rs.takeWhile TraceRecord.isWritable
  fault_eq_none_iff : (extend rs s).2 = none ↔ ∀ r ∈ rs, r.isWritable = true
  roomy : (extend rs s).1.Roomy
  place : (extend rs s).1.place = s.place
  lines : ∃ lines, List.Forall₂ (fun r line => r.line = .ok line) (taken rs s) lines ∧
    (extend rs s).1.text = s.text ++ String.join lines

theorem extended_of_roomy (hroom : s.Roomy) : Extended rs s := by
  induction rs generalizing s with
  | nil =>
    refine ⟨rfl, by simp [extend], hroom, rfl, [], .nil, ?_⟩
    rw [String.join_nil, String.append_empty]
    rfl
  | cons r rs ih =>
    rcases append_of_roomy (r := r) hroom with ⟨m, hline, happend⟩ |
      ⟨line, s', hline, happend, hroom', htext, hplace⟩
    · have hwritable : r.isWritable = false := by rw [TraceRecord.isWritable, hline]; rfl
      have hextend : extend (r :: rs) s = (s, some (.unwritable m)) := by rw [extend, happend]
      have htaken : taken (r :: rs) s = [] := by rw [taken, happend]
      refine ⟨?_, ?_, by rw [hextend]; exact hroom, by rw [hextend], [], ?_, ?_⟩
      · rw [htaken, List.takeWhile_cons, hwritable, if_neg Bool.false_ne_true]
      · rw [hextend]
        simp [hwritable]
      · rw [htaken]
        exact .nil
      · rw [hextend, String.join_nil, String.append_empty]
    · have hwritable : r.isWritable = true := by rw [TraceRecord.isWritable, hline]; rfl
      have hextend : extend (r :: rs) s = extend rs s' := by rw [extend, happend]
      have htaken : taken (r :: rs) s = r :: taken rs s' := by rw [taken, happend]
      obtain ⟨hfront, hfault, hroom'', hplace', lines, hlines, htext'⟩ := ih hroom'
      refine ⟨?_, ?_, by rw [hextend]; exact hroom'', by rw [hextend, hplace', hplace],
        line :: lines, ?_, ?_⟩
      · rw [htaken, hfront, List.takeWhile_cons, hwritable, if_pos rfl]
      · rw [hextend, hfault, List.forall_mem_cons, hwritable]
        simp
      · rw [htaken]
        exact .cons hline hlines
      · rw [hextend, htext', htext, String.join_cons, String.append_assoc]

end Trace

namespace BestEffortLog

open Trace

/-! ## Calls -/

inductive Call where
  | append (r : TraceRecord)
  | close

/-- A call on a log, which may change the disk that the log is on, and the failure that
leaves the call. -/
def Call.perform (s : BestEffortLog × Disk) : Call → (BestEffortLog × Disk) × Option TraceFault
  | append r => (((s.1.tryAppend r).1, s.2), (s.1.tryAppend r).2)
  | close => s.1.tryClose s.2

/-- Calls one after another; whoever makes them goes on after a failure. -/
def performAll (calls : List Call) (s : BestEffortLog × Disk) : BestEffortLog × Disk :=
  calls.foldl (fun s c => (c.perform s).1) s

/-- The records that are appended before the log is closed, without those whose failure is
not caught. -/
def attempted : List Call → List TraceRecord
  | .append r :: calls => if r.escapes then attempted calls else r :: attempted calls
  | _ => []

def closes : List Call → Bool
  | [] => false
  | .append _ :: calls => closes calls
  | .close :: _ => true

def appendAll (rs : List TraceRecord) (b : BestEffortLog) : BestEffortLog :=
  rs.foldl (fun b r => b.append r) b

section
variable {b : BestEffortLog} {d : Disk} {rs : List TraceRecord}

theorem append_of_not_isEnabled (h : b.isEnabled = false) (r : TraceRecord) : b.append r = b := by
  rw [append, tryAppend, h, if_neg Bool.false_ne_true]

/-- An append raises when the record is nested too deep and the log is enabled. -/
theorem tryAppend_raises_iff {r : TraceRecord} {f : TraceFault} : (b.tryAppend r).2 = some f ↔
    b.isEnabled = true ∧ r = .tooDeep ∧ f = .unwritable .tooDeep := by
  rw [tryAppend]
  by_cases hopen : b.isEnabled = true
  · rw [if_pos hopen, and_iff_right hopen]
    rw [isEnabled, Bool.and_eq_true] at hopen
    obtain ⟨s, hs⟩ := Option.isSome_iff_exists.1 hopen.1
    rw [hs, ← fault_eq_tooDeep_iff (s := s)]
    dsimp only
    cases happend : Trace.append r s with
    | mk s' fault =>
      cases fault with
      | none => simp
      | some g =>
        dsimp only
        by_cases hdeep : g = .unwritable .tooDeep
        · rw [if_neg fun hcaught => caughtInAppend_iff.1 hcaught hdeep, hdeep]
          simp [eq_comm]
        · rw [if_pos (caughtInAppend_iff.2 hdeep)]
          simp [hdeep]
  · rw [if_neg hopen]
    exact ⟨nofun, fun h => absurd h.1 hopen⟩

/-- An append that raises leaves the log as it was. -/
theorem append_of_escapes {r : TraceRecord} (h : r.escapes = true) (b : BestEffortLog) :
    b.append r = b := by
  obtain rfl := TraceRecord.escapes_iff.1 h
  rw [append, tryAppend]
  split
  · cases hs : b.stream with
    | none => rfl
    | some s =>
      cases b
      exact congrArg (BestEffortLog.mk · _ _ _) hs.symm
  · rfl

theorem tryClose_raises (b : BestEffortLog) (d : Disk) : (b.tryClose d).2 = none := by
  rw [tryClose]
  split
  · rfl
  · next s _ =>
    cases hclose : Trace.close s d with
    | mk d' fault =>
      cases fault with
      | none => rfl
      | some f =>
        have hsystem : caughtInClose.contains f.kind = true := by
          rw [fault_of_close (congrArg Prod.snd hclose)]
          rfl
        dsimp only
        rw [if_pos hsystem]

theorem perform_raises_iff {s : BestEffortLog × Disk} {c : Call} {f : TraceFault} :
    (c.perform s).2 = some f ↔
      s.1.isEnabled = true ∧ c = .append .tooDeep ∧ f = .unwritable .tooDeep := by
  cases c with
  | append r =>
    rw [Call.append.injEq]
    exact tryAppend_raises_iff
  | close =>
    rw [Call.perform, tryClose_raises]
    exact ⟨nofun, fun h => nomatch h.2.1⟩

theorem appendAll_of_not_isEnabled (h : b.isEnabled = false) : appendAll rs b = b := by
  induction rs with
  | nil => rfl
  | cons r rs ih => exact (congrArg (appendAll rs) (append_of_not_isEnabled h r)).trans ih

theorem isEnabled_of_closed (h : b.stream = none) : b.isEnabled = false := by
  rw [isEnabled, h]
  rfl

theorem close_of_closed (h : b.stream = none) (d : Disk) : b.close d = (b, d) := by
  rw [close, tryClose, h]

/-- The warning that is given when closing fails; it has nothing to do with the reason. -/
def closingWarning : String := warningOf ("rebuild trace close failed: " ++ Stream.outOfSpace.message)

theorem close_of_open {s : Stream} (h : b.stream = some s) (d : Disk) :
    b.close d = ({ b with
      stream := none
      warnings := b.warnings ++ if (s.close d).2 then [] else [closingWarning] }, (s.close d).1) := by
  rw [close, tryClose, h]
  dsimp only
  rw [Trace.close]
  cases s.close d with
  | mk d' ok =>
    cases ok with
    | true =>
      rw [if_pos rfl, List.append_nil]
      rfl
    | false => rfl

theorem stream_close (b : BestEffortLog) (d : Disk) : (b.close d).1.stream = none := by
  cases h : b.stream with
  | none => rw [close_of_closed h, h]
  | some s => rw [close_of_open h]

theorem performAll_of_closed (h : b.stream = none) (calls : List Call) :
    performAll calls (b, d) = (b, d) := by
  induction calls with
  | nil => rfl
  | cons c calls ih =>
    have hstep : (c.perform (b, d)).1 = (b, d) := by
      cases c with
      | append r => exact congrArg (·, d) (append_of_not_isEnabled (isEnabled_of_closed h) r)
      | close => exact close_of_closed h d
    exact (congrArg (performAll calls) hstep).trans ih

/-- Any calls come to appending what is attempted, and to one close if there is any. -/
theorem performAll_eq (calls : List Call) (b : BestEffortLog) (d : Disk) :
    performAll calls (b, d) =
      if closes calls then (appendAll (attempted calls) b).close d
      else (appendAll (attempted calls) b, d) := by
  induction calls generalizing b with
  | nil => rfl
  | cons c calls ih =>
    cases c with
    | append r =>
      have hstep : performAll (.append r :: calls) (b, d) = performAll calls (b.append r, d) := rfl
      rw [hstep, attempted, closes]
      cases hescapes : r.escapes with
      | true =>
        rw [append_of_escapes hescapes, if_pos rfl]
        exact ih b
      | false =>
        rw [if_neg Bool.false_ne_true]
        exact ih (b.append r)
    | close => exact performAll_of_closed (stream_close b d) calls

/-- Calls on a log that is not enabled do no more than to close it. -/
theorem performAll_of_not_isEnabled (h : b.isEnabled = false) (calls : List Call) (d : Disk) :
    performAll calls (b, d) = if closes calls then b.close d else (b, d) := by
  rw [performAll_eq, appendAll_of_not_isEnabled h]

end

/-! ## Appending until a failure -/

def reasonOf (f : TraceFault) : String := "rebuild trace logging failed: " ++ f.message

/-- Records that are appended to an open log are appended to its stream up to the first
failure, which is the reason from then on. -/
theorem appendAll_eq {rs : List TraceRecord} (h : ∀ r ∈ rs, r.escapes = false) (s : Stream)
    (written : Nat) (warnings : List String) :
    appendAll rs ⟨some s, written, none, warnings⟩ =
      ⟨some (extend rs s).1, written + (taken rs s).length, (extend rs s).2.map reasonOf,
        warnings ++ ((extend rs s).2.map reasonOf).toList.map warningOf⟩ := by
  induction rs generalizing s written with
  | nil => simp [appendAll, extend, taken]
  | cons r rs ih =>
    have hopen : (⟨some s, written, none, warnings⟩ : BestEffortLog).isEnabled = true := rfl
    change appendAll rs (append r ⟨some s, written, none, warnings⟩) = _
    rw [List.forall_mem_cons] at h
    rw [append, tryAppend, if_pos hopen, extend, taken]
    dsimp only
    cases happend : Trace.append r s with
    | mk s' fault =>
      cases fault with
      | none =>
        dsimp only
        rw [ih h.2, List.length_cons]
        congr 1
        omega
      | some f =>
        have hcaught : caughtInAppend.contains f.kind = true := by
          refine caughtInAppend_iff.2 fun hdeep => ?_
          have hfault : (Trace.append r s).2 = some (.unwritable .tooDeep) := by
            rw [happend, hdeep]
          have hescapes := TraceRecord.escapes_iff.2 (fault_eq_tooDeep_iff.1 hfault)
          rw [h.1] at hescapes
          exact Bool.false_ne_true hescapes
        dsimp only
        rw [if_pos hcaught]
        exact appendAll_of_not_isEnabled rfl

theorem escapes_of_mem_attempted {calls : List Call} :
    ∀ r ∈ attempted calls, r.escapes = false := by
  induction calls with
  | nil => exact fun r hr => absurd hr List.not_mem_nil
  | cons c calls ih =>
    cases c with
    | close => exact fun r hr => absurd hr List.not_mem_nil
    | append r =>
      rw [attempted]
      split
      · exact ih
      · next h => exact List.forall_mem_cons.2 ⟨Bool.eq_false_iff.2 h, ih⟩

/-! ## The account of a log -/

/-- The log and the disk after calls on a log that was just opened. -/
def after (l : Location) (d : Disk) (calls : List Call) : BestEffortLog × Disk :=
  performAll calls (openAt l d)

/-- The records that are written: those attempted before the first failure. -/
def kept (l : Location) (d : Disk) (calls : List Call) : List TraceRecord :=
  match Stream.openAt l d with
  | .ok (_, s) => taken (attempted calls) s
  | .error _ => []

/-- The first failure, of opening or of an append that was attempted. -/
def failure? (l : Location) (d : Disk) (calls : List Call) : Option String :=
  match Stream.openAt l d with
  | .ok (_, s) => (extend (attempted calls) s).2.map reasonOf
  | .error e => some ("rebuild trace logging disabled: " ++ e.message)

/-- The disk when the log is closed in the end, if it is not closed yet. -/
def settled (s : BestEffortLog × Disk) : Disk := (s.1.close s.2).2

/-- What a place has gained when its file held `t` after opening. -/
structure Gained (l : Location) (d : Disk) (calls : List Call) (t : String) : Prop where
  lines : ∃ lines, List.Forall₂ (fun r line => r.line = .ok line) (kept l d calls) lines ∧
    Disk.entry? (settled (after l d calls)) l = some (.file (t ++ String.join lines))
  kept_eq : ∀ o, Stream.openAt l d = .ok o →
    kept l d calls = (attempted calls).takeWhile TraceRecord.isWritable
  failure_eq_none_iff : ∀ o, Stream.openAt l d = .ok o →
    (failure? l d calls = none ↔ ∀ r ∈ attempted calls, r.isWritable = true)
  warnings : (after l d calls).1.warnings = (failure? l d calls).toList.map warningOf

/-- What there is to say of any calls on a log that was opened at a place. -/
structure Account (l : Location) (d : Disk) (calls : List Call) : Prop where
  /-- The next call raises only if it appends a record that is nested too deep. -/
  raises : ∀ c f, (Call.perform (after l d calls) c).2 = some f ↔
    (after l d calls).1.isEnabled = true ∧ c = .append .tooDeep ∧ f = .unwritable .tooDeep
  written : (after l d calls).1.written = (kept l d calls).length
  reason : (after l d calls).1.disabledReason = failure? l d calls
  /-- The failure is reported once, and nothing else is but a failure to close. -/
  warnings : (after l d calls).1.warnings = (failure? l d calls).toList.map warningOf ∨
    (after l d calls).1.warnings = (failure? l d calls).toList.map warningOf ++ [closingWarning]
  isEnabled_iff : (after l d calls).1.isEnabled = true ↔
    failure? l d calls = none ∧ closes calls = false
  /-- After the first failure or close nothing is written, and the reason stays. -/
  latched : (after l d calls).1.isEnabled = false → ∀ more : List Call,
    (after l d (calls ++ more)).1.written = (after l d calls).1.written ∧
      (after l d (calls ++ more)).1.disabledReason = (after l d calls).1.disabledReason ∧
      settled (after l d (calls ++ more)) = settled (after l d calls)
  unopened : (∃ e, Stream.openAt l d = .error e) → (after l d calls).2 = d
  gained : ∀ t, Disk.entry? (openAt l d).2 l = some (.file t) → Gained l d calls t
  /-- A full device gains nothing, whatever is counted. -/
  lost : Disk.entry? (openAt l d).2 l = some .fullDevice →
    Disk.entry? (settled (after l d calls)) l = some .fullDevice

section
variable {l : Location} {d d' : Disk} {s : Stream} {calls : List Call} {t : String}

theorem settled_close (b : BestEffortLog) (d : Disk) : settled (b.close d) = settled (b, d) := by
  rw [settled, close_of_closed (stream_close b d)]
  rfl

theorem close_written (b : BestEffortLog) (d : Disk) :
    (b.close d).1.written = b.written ∧ (b.close d).1.disabledReason = b.disabledReason := by
  cases h : b.stream with
  | none => rw [close_of_closed h]; exact ⟨rfl, rfl⟩
  | some s => rw [close_of_open h]; exact ⟨rfl, rfl⟩

theorem close_warnings (b : BestEffortLog) (d : Disk) :
    (b.close d).1.warnings = b.warnings ∨
      (b.close d).1.warnings = b.warnings ++ [closingWarning] := by
  cases h : b.stream with
  | none => exact Or.inl (by rw [close_of_closed h])
  | some s =>
    rw [close_of_open h]
    dsimp only
    split
    · exact Or.inl (List.append_nil _)
    · exact Or.inr rfl

theorem latched_of_not_isEnabled (h : (after l d calls).1.isEnabled = false) (more : List Call) :
    (after l d (calls ++ more)).1.written = (after l d calls).1.written ∧
      (after l d (calls ++ more)).1.disabledReason = (after l d calls).1.disabledReason ∧
      settled (after l d (calls ++ more)) = settled (after l d calls) := by
  have hmore : after l d (calls ++ more) =
      performAll more ((after l d calls).1, (after l d calls).2) := List.foldl_append
  rw [hmore, performAll_of_not_isEnabled h]
  split
  · obtain ⟨hwritten, hreason⟩ := close_written (after l d calls).1 (after l d calls).2
    exact ⟨hwritten, hreason, settled_close _ _⟩
  · exact ⟨rfl, rfl, rfl⟩

/-! ## A log that could not be opened -/

theorem openAt_of_error {e : DiskError} (h : Stream.openAt l d = .error e) (calls : List Call) :
    openAt l d =
      (⟨none, 0, failure? l d calls, (failure? l d calls).toList.map warningOf⟩, d) := by
  rw [openAt, failure?, h]
  rfl

theorem account_of_error {e : DiskError} (h : Stream.openAt l d = .error e) :
    Account l d calls := by
  have hopen := openAt_of_error h calls
  have hafter : after l d calls = openAt l d := by
    rw [after, hopen]
    exact performAll_of_closed rfl calls
  have hkept : kept l d calls = [] := by rw [kept, h]
  have hfailure : failure? l d calls = some ("rebuild trace logging disabled: " ++ e.message) := by
    rw [failure?, h]
  have hsettled : settled (after l d calls) = (openAt l d).2 := by
    rw [hafter, hopen]
    rfl
  constructor
  · exact fun c f => perform_raises_iff
  · rw [hafter, hopen, hkept]
    rfl
  · rw [hafter, hopen]
  · rw [hafter, hopen]
    exact Or.inl rfl
  · rw [hafter, hopen, isEnabled_of_closed rfl, hfailure]
    simp
  · exact latched_of_not_isEnabled
  · rw [hafter, hopen]
    exact fun _ => rfl
  · intro t ht
    refine ⟨⟨[], ?_, ?_⟩, ?_, ?_, ?_⟩
    · rw [hkept]
      exact .nil
    · rw [hsettled, ht, String.join_nil, String.append_empty]
    · intro o ho
      exact nomatch h.symm.trans ho
    · intro o ho
      exact nomatch h.symm.trans ho
    · rw [hafter, hopen]
  · rw [hsettled]
    exact id

/-! ## A log that could be opened -/

theorem after_of_ok (h : Stream.openAt l d = .ok (d', s)) (calls : List Call) :
    after l d calls =
      let b : BestEffortLog := ⟨some (extend (attempted calls) s).1, (kept l d calls).length,
        failure? l d calls, (failure? l d calls).toList.map warningOf⟩
      if closes calls then b.close d' else (b, d') := by
  rw [after, openAt, kept, failure?, h]
  dsimp only
  rw [performAll_eq, appendAll_eq escapes_of_mem_attempted, Nat.zero_add, List.nil_append]

theorem settled_of_ok (h : Stream.openAt l d = .ok (d', s)) :
    settled (after l d calls) = ((extend (attempted calls) s).1.close d').1 := by
  rw [after_of_ok h]
  dsimp only
  split
  · rw [settled_close, settled, close_of_open rfl]
  · rw [settled, close_of_open rfl]

theorem gained_of_ok (h : Stream.openAt l d = .ok (d', s)) (ht : d'.entry? l = some (.file t)) :
    Gained l d calls t := by
  obtain ⟨hholds, rfl⟩ := Disk.holds_of_openAt h ht
  have hextended : Extended (attempted calls) ⟨l, false, "", 0, 0⟩ := extended_of_roomy ⟨rfl, rfl⟩
  have hkept : kept l d calls = taken (attempted calls) ⟨l, false, "", 0, 0⟩ := by rw [kept, h]
  have hclose := hextended.roomy.close d'
  refine ⟨?_, fun _ _ => hkept.trans hextended.taken_eq, fun _ _ => ?_, ?_⟩
  · obtain ⟨lines, hlines, htext⟩ := hextended.lines
    refine ⟨lines, hkept ▸ hlines, ?_⟩
    rw [settled_of_ok h, hclose, hextended.place, htext, String.empty_append]
    exact (hholds.appendText _).entry
  · rw [failure?, h]
    dsimp only
    rw [Option.map_eq_none_iff, hextended.fault_eq_none_iff]
  · rw [after_of_ok h]
    dsimp only
    split
    · rw [close_of_open rfl, hclose]
      exact List.append_nil _
    · rfl

theorem account_of_ok (h : Stream.openAt l d = .ok (d', s)) : Account l d calls := by
  have hafter := after_of_ok h calls
  dsimp only at hafter
  constructor
  · exact fun c f => perform_raises_iff
  · rw [hafter]
    split
    · exact (close_written _ d').1
    · rfl
  · rw [hafter]
    split
    · exact (close_written _ d').2
    · rfl
  · rw [hafter]
    split
    · exact close_warnings _ d'
    · exact Or.inl rfl
  · rw [hafter]
    cases hclosed : closes calls with
    | true =>
      rw [if_pos rfl, isEnabled_of_closed (stream_close _ d')]
      simp
    | false =>
      rw [if_neg Bool.false_ne_true, isEnabled]
      simp
  · exact latched_of_not_isEnabled
  · rintro ⟨e, he⟩
    exact nomatch h.symm.trans he
  · intro t ht
    rw [openAt, h] at ht
    exact gained_of_ok h ht
  · intro hdevice
    rw [openAt, h] at hdevice
    have hplace := (place_extend (attempted calls) s).trans (Stream.place_of_openAt h)
    have hclose : ((extend (attempted calls) s).1.close d').1 = d' := by
      rw [Stream.close, hplace, Disk.appendText, hdevice]
    rw [settled_of_ok h, hclose]
    exact hdevice

end

/-- Whatever is called on a best-effort log, no call raises but an append of a record that is
nested too deep, which changes nothing.  Apart from these it keeps the records that were
appended before the first failure and the first close, and keeps the failure as its reason for
good. -/
theorem fails_once (l : Location) (d : Disk) (calls : List Call) : Account l d calls := by
  cases h : Stream.openAt l d with
  | error e => exact account_of_error h
  | ok o => exact account_of_ok h

/-- A value that has no form ends the writing; what is appended after it is not looked at. -/
example :
    let s := after ⟨true, ["trace"]⟩ [] [.append (.json (.arr [])), .append (.unwritable "object"),
      .append (.json (.arr [])), .close, .append (.json (.arr [])), .close]
    let reason := "rebuild trace logging failed: Object of type object is not JSON serializable"
    s.1 = ⟨none, 1, some reason, ["WARNING: " ++ reason]⟩ ∧
      s.2 = [(⟨true, ["trace"]⟩, .file "[]\n")] := by
  decide +kernel

/-! ## What is not recorded -/

/-- Lists in one another around an empty one. -/
def nested : Nat → Json
  | 0 => .arr []
  | n + 1 => .arr [nested n]

theorem depth_nested (n : Nat) : (nested n).depth = n + 1 := by
  induction n with
  | zero => rfl
  | succ n ih => rw [nested, Json.depth, Json.itemDepth, Json.itemDepth, Nat.max_zero, ih]

/-- A device that takes no bytes. -/
def fullDevice : Disk :=
  [(⟨true, ["dev"]⟩, .directory), (⟨true, ["dev", "full"]⟩, .fullDevice)]

/-- Appending can raise, and what is counted need not be in a file. -/
theorem not_forall_recorded :
    (¬ ∀ (l : Location) (d : Disk) (calls : List Call) (c : Call),
      (c.perform (after l d calls)).2 = none) ∧
    ¬ ∀ (l : Location) (d : Disk) (calls : List Call), (after l d calls).1.written = 0 ∨
      ∃ t, Disk.entry? (settled (after l d calls)) l = some (.file t) := by
  constructor
  · intro h
    have hdeep : TraceRecord.ofJson 1000 (.obj [("x", nested 2000)]) = .tooDeep := by
      rw [TraceRecord.ofJson_eq_tooDeep_iff, Json.depth, Json.fieldDepth, Json.fieldDepth,
        depth_nested]
      decide
    have hopen : (after ⟨true, ["trace"]⟩ [] []).1.isEnabled = true := by decide +kernel
    have hraises := perform_raises_iff.2 ⟨hopen, rfl, rfl⟩
    rw [← hdeep, h] at hraises
    exact nomatch hraises
  · intro h
    have hwritten : (after ⟨true, ["dev", "full"]⟩ fullDevice [.append (.json (.arr []))]).1.written =
        1 := by
      decide +kernel
    have hentry : Disk.entry? (settled (after ⟨true, ["dev", "full"]⟩ fullDevice
        [.append (.json (.arr []))])) ⟨true, ["dev", "full"]⟩ = some .fullDevice := by
      decide +kernel
    rcases h ⟨true, ["dev", "full"]⟩ fullDevice [.append (.json (.arr []))] with hnone | ⟨t, ht⟩
    · rw [hwritten] at hnone
      exact absurd hnone (by decide)
    · rw [hentry] at ht
      exact nomatch ht

end BestEffortLog
end FormulaMap

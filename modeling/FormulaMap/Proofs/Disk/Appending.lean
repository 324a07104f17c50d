/-
A file that is opened, appended to and opened again.

`Holds` says that a place can be reached and that a file with a given text is there.
Opening such a file changes nothing and appending adds to its text, so the promise is
kept from one stream to the next.  It is established by opening a place for the first
time (`holds_of_openAt`), whatever had to be made for that.
-/
import FormulaMap.Disk.Stream
import Mathlib.Data.List.Basic

namespace FormulaMap
namespace Disk

variable {d d' : Disk} {l a : Location}

/-! ## Entries -/

theorem find?_set (d : Disk) (l a : Location) (e : DiskEntry) :
    ((d.set l e).find? fun x => x.1 = a).map (·.2) =
      if a = l then some e else (d.find? fun x => x.1 = a).map (·.2) := by
  induction d with
  | nil =>
    by_cases h : l = a
    · simp [set, h]
    · simp [set, h, Ne.symm h]
  | cons x d ih =>
    obtain ⟨k, y⟩ := x
    by_cases hk : k = l
    · subst hk
      by_cases ha : k = a
      · simp [set, ha]
      · simp [set, ha, Ne.symm ha]
    · by_cases ha : k = a
      · have hne : a ≠ l := ha ▸ hk
        simp [set, ha, hne]
      · simpa [set, hk, ha] using ih

theorem entry?_set (d : Disk) (l a : Location) (e : DiskEntry) :
    entry? (d.set l e) a =
      if a.names.isEmpty then some .directory else if a = l then some e else d.entry? a := by
  rw [ entry?, entry?, find?_set]
  split
  · rfl
  · rfl

/-! ## Places that can be reached -/

/-- There is a directory at every place above this one. -/
def Reachable (d : Disk) (l : Location) : Prop := ∀ a ∈ l.above, d.entry? a = some .directory

theorem obstacle?_eq_none_iff : d.obstacle? l = none ↔ d.Reachable l := by
  unfold obstacle?
  cases hfind : l.above.find? fun a => d.entry? a ≠ some .directory with
  | none =>
    rw [List.find?_eq_none] at hfind
    exact iff_of_true rfl fun a ha => by simpa using hfind a ha
  | some a =>
    have ha := List.find?_some hfind
    refine iff_of_false ?_ fun h => ?_
    · dsimp only
      split
      · exact Option.some_ne_none _
      · exact Option.some_ne_none _
    · rw [h a (List.mem_of_find?_eq_some hfind)] at ha
      exact absurd ha (by decide)

theorem look_of_reachable (h : d.Reachable l) : d.look l = .ok (d.entry? l) := by
  rw [look, obstacle?_eq_none_iff.2 h]

theorem reachable_of_look {o : Option DiskEntry} (h : d.look l = .ok o) :
    d.Reachable l ∧ o = d.entry? l := by
  unfold look at h
  split at h
  · cases h
  · next hnone =>
    cases h
    exact ⟨obstacle?_eq_none_iff.1 hnone, rfl⟩

theorem mem_above_iff :
    a ∈ l.above ↔ ∃ n < l.names.length, a = { l with names := l.names.take n } := by
  simp only [Location.above, List.mem_map, List.mem_range, eq_comm]

theorem above_subset (ha : a ∈ l.above) : ∀ b ∈ a.above, b ∈ l.above := by
  obtain ⟨n, hn, rfl⟩ := mem_above_iff.1 ha
  intro b hb
  obtain ⟨m, hm, rfl⟩ := mem_above_iff.1 hb
  rw [List.length_take] at hm
  exact mem_above_iff.2 ⟨m, by omega, by rw [List.take_take, Nat.min_eq_left (by omega)]⟩

theorem ne_of_mem_above (ha : a ∈ l.above) : a ≠ l := by
  obtain ⟨n, hn, rfl⟩ := mem_above_iff.1 ha
  intro heq
  have hlength := congrArg (·.names.length) heq
  simp only [List.length_take] at hlength
  omega

theorem above_eq (h : l.names ≠ []) : l.above = l.parent.above ++ [l.parent] := by
  have hlength : l.names.length = l.parent.names.length + 1 := by
    have := List.length_pos_iff.2 h
    rw [Location.parent, List.length_dropLast]
    omega
  rw [Location.above, hlength, List.range_succ, List.map_append, Location.above]
  congr 1
  · refine List.map_congr_left fun n hn => ?_
    rw [List.mem_range] at hn
    rw [Location.parent, List.dropLast_eq_take, List.take_take]
    rw [Location.parent, List.length_dropLast] at hn
    rw [Nat.min_eq_left (by omega)]
  · rw [List.map_singleton, Location.parent, List.length_dropLast, List.dropLast_eq_take]

/-! ## Making directories -/

theorem makeDirectory_of_directory (hreach : d.Reachable a)
    (ha : d.entry? a = some .directory) : d.makeDirectory a = .ok d := by
  rw [makeDirectory, look_of_reachable hreach, ha]
  rfl

theorem makeDirectories_of_directories (h : ∀ a ∈ l.above ++ [l], d.entry? a = some .directory) :
    d.makeDirectories l = .ok d := by
  have hmake : ∀ a ∈ l.above ++ [l], d.makeDirectory a = .ok d := by
    intro a ha
    refine makeDirectory_of_directory (fun b hb => h b (List.mem_append_left _ ?_)) (h a ha)
    rcases List.mem_append.1 ha with ha | ha
    · exact above_subset ha b hb
    · rw [List.mem_singleton.1 ha] at hb
      exact hb
  unfold makeDirectories
  generalize l.above ++ [l] = places at hmake
  induction places with
  | nil => rfl
  | cons a places ih =>
    rw [List.foldlM_cons, hmake a List.mem_cons_self]
    exact ih fun b hb => hmake b (List.mem_cons_of_mem _ hb)

/-! ## Files -/

theorem openAt_of_makeDirectories (h : d.makeDirectories l.parent = .ok d') :
    Stream.openAt l d =
      (d'.openFile l).map fun r => (r.1, ⟨l, r.2 = DiskEntry.fullDevice, "", 0, 0⟩) := by
  rw [Stream.openAt, h]
  change (d'.openFile l).bind (fun r =>
    .ok (r.1, Stream.mk l (r.2 = DiskEntry.fullDevice) "" 0 0)) = _
  cases d'.openFile l with
  | error e => rfl
  | ok r => rfl

theorem Reachable.set (h : d.Reachable l) (e : DiskEntry) : (d.set l e).Reachable l := by
  intro a ha
  rw [entry?_set, if_neg (ne_of_mem_above ha), h a ha, ite_self]

/-- There is a file with this text at a place that can be reached. -/
structure Holds (d : Disk) (l : Location) (t : String) : Prop where
  reachable : d.Reachable l
  entry : d.entry? l = some (.file t)

namespace Holds

variable {t : String}

theorem names_ne_nil (h : d.Holds l t) : l.names ≠ [] := by
  intro hnil
  have hentry := h.entry
  rw [ entry?, hnil] at hentry
  cases hentry

theorem openFile (h : d.Holds l t) : d.openFile l = .ok (d, .file t) := by
  rw [Disk.openFile, look_of_reachable h.reachable, h.entry]
  rfl

theorem openAt (h : d.Holds l t) : Stream.openAt l d = .ok (d, ⟨l, false, "", 0, 0⟩) := by
  have hdirs : ∀ a ∈ l.parent.above ++ [l.parent], d.entry? a = some .directory := by
    rw [← above_eq h.names_ne_nil]
    exact h.reachable
  rw [openAt_of_makeDirectories (makeDirectories_of_directories hdirs), h.openFile]
  rfl

theorem appendText (h : d.Holds l t) (s : String) : (d.appendText l s).Holds l (t ++ s) := by
  rw [Disk.appendText, h.entry]
  refine ⟨h.reachable.set _, ?_⟩
  rw [entry?_set, if_pos rfl, if_neg]
  rw [List.isEmpty_iff]
  exact h.names_ne_nil

theorem readText (h : d.Holds l t) :
    d.readText l = .ok (String.ofList (Text.unifyLineEnds t.toList)) := by
  rw [Disk.readText, look_of_reachable h.reachable, h.entry]
  rfl

end Holds

/-- A place that was opened can be reached, and its file is the one to append to. -/
theorem holds_of_openAt {s : Stream} {t : String} (h : Stream.openAt l d = .ok (d', s))
    (hfile : d'.entry? l = some (.file t)) : d'.Holds l t ∧ s = ⟨l, false, "", 0, 0⟩ := by
  have hnames : l.names.isEmpty ≠ true := by
    intro hempty
    rw [ entry?, if_pos hempty] at hfile
    cases hfile
  cases hdirs : d.makeDirectories l.parent with
  | error e =>
    rw [Stream.openAt, hdirs] at h
    cases h
  | ok d₁ =>
    rw [openAt_of_makeDirectories hdirs, openFile] at h
    cases hlook : d₁.look l with
    | error e =>
      rw [hlook] at h
      cases h
    | ok o =>
      obtain ⟨hreach, hentry⟩ := reachable_of_look hlook
      rw [hlook] at h
      match o with
      | none =>
        cases h
        exact ⟨⟨hreach.set _, hfile⟩, rfl⟩
      | some .directory => cases h
      | some .fullDevice =>
        cases h
        rw [← hentry] at hfile
        cases hfile
      | some (.file _) =>
        cases h
        exact ⟨⟨hreach, hfile⟩, rfl⟩

end Disk
end FormulaMap

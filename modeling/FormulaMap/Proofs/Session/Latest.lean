/-
The latest ticket wins.

However requests, completions and rebuilds follow one another, only the layout
for the ticket that was issued last is put into use.  A layout that comes too
late and a renderer that fails change nothing that is in use, so the number of
the active ticket never goes down.
-/
import FormulaMap.Proofs.Session.Run

namespace FormulaMap
namespace Session

variable {α σ ε : Type}

variable [Coordinate α] [EventSink σ]

theorem complete_stale_sameInUse {t : Ticket} {s : Session α σ} (h : t.generation ≠ s.generation)
    (layout : Layout α) : SameInUse s (s.complete t layout).2 := by
  rw [complete_stale h]
  exact .record _ _ _

theorem rebuild_failed_sameInUse {formula : String} {render : String → Except ε (Layout α)}
    (message : ε → String) {s : Session α σ} {e : ε}
    (h : render (s.request formula).1.source = .error e) :
    SameInUse s (s.rebuild formula render message).2 := by
  rw [rebuild_failed h]
  exact (SameInUse.request formula s).trans (.record _ _ _)

theorem rebuild_rendered_active {formula : String} {render : String → Except ε (Layout α)}
    (message : ε → String) {s : Session α σ} {layout : Layout α}
    (h : render (s.request formula).1.source = .ok layout) :
    (s.rebuild formula render message).2.activeMap =
      some (joinTicket s.settings (s.request formula).1 layout).1 ∧
    (s.rebuild formula render message).2.activeTicket = some (s.request formula).1 := by
  obtain ⟨-, -, hmap, hticket, -⟩ := install_spec (s.request formula).1 layout
    ((s.request formula).2.record (s.request formula).1.generation .rendered)
  rw [record_settings, (request_spec formula s).2.1] at hmap
  rw [rebuild_rendered h]
  exact ⟨hmap, hticket⟩

namespace Run

/-! ## One operation -/

section

variable {message : ε → String} {r r' : Run α σ} {op : Operation α ε}

theorem generation_of_performed (h : op.Performed message r r') :
    r'.session.generation = r.session.generation + if op.isRequest then 1 else 0 := by
  cases h with
  | request formula => exact (request_spec formula r.session).2.2.1
  | stale _ _ => exact record_generation _ _ _
  | latest layout _ => exact (install_spec _ layout r.session).2.1
  | failed _ =>
    rw [record_generation]
    exact (request_spec _ r.session).2.2.1
  | rendered _ =>
    rw [(install_spec _ _ _).2.1, record_generation]
    exact (request_spec _ r.session).2.2.1

/-- An operation leaves the active ticket alone or makes the latest one active. -/
theorem activeTicket_of_performed (h : op.Performed message r r') :
    r'.session.activeTicket = r.session.activeTicket ∨
    ∃ t, r'.session.activeTicket = some t ∧ t.generation = r'.session.generation := by
  cases h with
  | request formula => exact Or.inl (SameInUse.request formula r.session).activeTicket
  | stale _ _ => exact Or.inl (SameInUse.record _ _ r.session).activeTicket
  | latest layout hlatest =>
    obtain ⟨-, hgen, -, hticket, -⟩ := install_spec _ layout r.session
    exact Or.inr ⟨_, hticket, hlatest.trans hgen.symm⟩
  | failed _ =>
    exact Or.inl ((SameInUse.request _ r.session).trans (.record _ _ _)).activeTicket
  | rendered _ =>
    refine Or.inr ⟨_, (install_spec _ _ _).2.2.2.1, ?_⟩
    rw [(install_spec _ _ _).2.1, record_generation]
    exact request_generation _ r.session

end

/-! ## Whole runs -/

theorem Leads.generation_eq {message : ε → String} {r r' : Run α σ} {ops : List (Operation α ε)}
    (h : Leads message r ops r') :
    r'.session.generation = r.session.generation + ops.countP Operation.isRequest := by
  induction h with
  | refl => rfl
  | step op _ _ ih =>
    rw [generation_of_performed (op.performed message _), ih, List.countP_append,
      List.countP_singleton, Nat.add_assoc]

/-- Once a ticket is active, there is always an active ticket, with a number that
is no smaller. -/
theorem Leads.activeTicket_le {settings : Tolerances α} {message : ε → String} {r r' : Run α σ}
    {ops : List (Operation α ε)} (h : Leads message r ops r') (hr : Consistent settings r)
    {t : Ticket} (ht : r.session.activeTicket = some t) :
    ∃ t', r'.session.activeTicket = some t' ∧ t.generation ≤ t'.generation := by
  induction h with
  | refl => exact ⟨t, ht, Nat.le_refl _⟩
  | @step r' _ op hlead hop ih =>
    obtain ⟨t', ht', hle⟩ := ih
    have hperformed := op.performed message r'
    rcases activeTicket_of_performed hperformed with hsame | ⟨u, hu, hgen⟩
    · exact ⟨t', hsame.trans ht', hle⟩
    · refine ⟨u, hu, Nat.le_trans hle ?_⟩
      have hissued : t' ∈ r'.issued := ((hlead.consistent hr).made t' ht').1
      calc t'.generation ≤ r'.session.generation := (hlead.consistent hr).generation_le hissued
        _ ≤ (op.perform message r').session.generation := by
          rw [generation_of_performed hperformed]
          omega
        _ = u.generation := hgen.symm

/-- In every run the latest ticket wins: its completion is the only one that
installs a map, and nothing else changes what is in use. -/
theorem latest_ticket_wins {settings : Tolerances α} {sink : Option σ} {message : ε → String}
    {ops : List (Operation α ε)} {r : Run α σ} (h : Leads message (start settings sink) ops r) :
    r.session.generation = ops.countP Operation.isRequest ∧
    (∀ t ∈ r.issued, ∀ layout : Layout α,
      ((r.session.complete t layout).1.isSome ↔ r.issued.getLast? = some t) ∧
      (r.issued.getLast? = some t →
        (r.session.complete t layout).1 = some (joinTicket settings t layout).1 ∧
        (r.session.complete t layout).2.activeMap = some (joinTicket settings t layout).1 ∧
        (r.session.complete t layout).2.activeTicket = some t ∧
        (r.session.complete t layout).2.summary = (joinTicket settings t layout).2) ∧
      (r.issued.getLast? ≠ some t → SameInUse r.session (r.session.complete t layout).2)) ∧
    (∀ (formula : String) (render : String → Except ε (Layout α)),
      (∀ e, render (r.session.request formula).1.source = .error e →
        SameInUse r.session (r.session.rebuild formula render message).2) ∧
      (∀ layout, render (r.session.request formula).1.source = .ok layout →
        (r.session.rebuild formula render message).2.activeMap =
          some (joinTicket settings (r.session.request formula).1 layout).1 ∧
        (r.session.rebuild formula render message).2.activeTicket =
          some (r.session.request formula).1)) ∧
    (∀ (more : List (Operation α ε)) (r' : Run α σ), Leads message r more r' →
      ∀ t, r.session.activeTicket = some t →
        ∃ t', r'.session.activeTicket = some t' ∧ t.generation ≤ t'.generation) ∧
    (r.session.activeMap.isSome ↔ r.session.activeTicket.isSome) ∧
    (r.session.summary = none ↔ ∀ t, r.session.activeTicket = some t → t.expr = none) := by
  have hr : Consistent settings r := h.consistent (Consistent.start settings sink)
  refine ⟨?_, ?_, ?_, ?_, hr.activeMap_isSome_iff, hr.summary_eq_none_iff⟩
  · rw [h.generation_eq]
    exact Nat.zero_add _
  · intro t ht layout
    rw [ne_eq, ← hr.generation_eq_iff ht]
    obtain ⟨-, -, hmap, hticket, hsum⟩ := install_spec t layout r.session
    rw [hr.settings_eq] at hmap hsum
    refine ⟨?_, ?_, fun hg => complete_stale_sameInUse hg layout⟩
    · by_cases hg : t.generation = r.session.generation
      · simp [complete_latest hg, hg]
      · simp [complete_stale hg, hg]
    · intro hg
      rw [complete_latest hg, hr.settings_eq]
      exact ⟨rfl, hmap, hticket, hsum⟩
  · intro formula render
    refine ⟨fun e he => rebuild_failed_sameInUse message he, fun layout hl => ?_⟩
    rw [← hr.settings_eq]
    exact rebuild_rendered_active message hl
  · intro more r' hmore t ht
    exact hmore.activeTicket_le hr ht

/-- Of two tickets the second is the one that can be completed. -/
theorem second_of_two_tickets_wins :
    let first : Operation Rat String := .request "1+2"
    let second : Operation Rat String := .request "3"
    let layout : Layout Rat := .node ⟨["katex-html"], "", ⟨0, 0, 10, 10⟩, []⟩ []
    let fresh : Run Rat (List LogEntry) := start .standard (some [])
    let r := second.perform id (first.perform id fresh)
    Leads id fresh [first, second] r ∧ r.session.generation = 2 ∧
      r.issued.map (fun t => (r.session.complete t layout).1.isSome) = [false, true] := by
  intro first second layout fresh r
  have hlead : Leads id fresh [first, second] r :=
    .step second (.step first (.refl _) trivial) trivial
  obtain ⟨hgen, hcomplete, -⟩ := latest_ticket_wins hlead
  have hissued : r.issued = [(issue 1 "1+2").1, (issue 2 "3").1] := rfl
  have hne : (issue 2 "3").1 ≠ (issue 1 "1+2").1 := fun he => by
    have := congrArg Ticket.generation he
    rw [issue_generation, issue_generation] at this
    exact absurd this (by decide)
  have h1 := (hcomplete (issue 1 "1+2").1 (by simp [hissued]) layout).1
  have h2 := (hcomplete (issue 2 "3").1 (by simp [hissued]) layout).1
  rw [hissued] at h1 h2
  refine ⟨hlead, hgen, ?_⟩
  rw [hissued, List.map_cons, List.map_singleton]
  rw [List.getLast?_cons_cons, List.getLast?_singleton, Option.some.injEq] at h1 h2
  rw [h2.2 rfl, Bool.eq_false_iff.2 (fun hs => hne (h1.1 hs))]

end Run
end Session
end FormulaMap

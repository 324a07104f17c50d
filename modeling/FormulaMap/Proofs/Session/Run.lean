/-
Runs of a session.

An operation on a session is a request, the completion of a ticket, or a rebuild
with a renderer that gives a layout or fails.  A ticket may be completed at any
time after it was issued, in any order and more than once, so a run keeps the
tickets that the session has issued, and completing one of those is all that is
asked of an operation.  There are five ways in which an operation can go (`Performed`), and
whatever holds of all operations is shown for each of them.

`Consistent` is the invariant that every run keeps: the tickets are numbered from
one in the order in which they were issued, the map and the counts in use were made
from the ticket in use and a layout, and nothing is in use without a ticket.
-/
import FormulaMap.Session

namespace FormulaMap
namespace Session

variable {α σ ε : Type}

/-! ## What an operation does -/

/-- Whatever the entry is, it goes to the log and the sink is called with it. -/
theorem record_eq [EventSink σ] (g : Nat) (step : RebuildStep) (s : Session α σ) :
    s.record g step =
      { s with
        log := s.log ++ [⟨g, step⟩]
        sink := s.sink.map fun k => EventSink.append k ⟨g, step⟩ } := by
  unfold record
  cases s.sink <;> rfl

section

variable [EventSink σ] (g : Nat) (step : RebuildStep) (s : Session α σ)

@[simp] theorem record_settings : (s.record g step).settings = s.settings := by
  rw [record_eq]

@[simp] theorem record_generation : (s.record g step).generation = s.generation := by
  rw [record_eq]

@[simp] theorem record_activeMap : (s.record g step).activeMap = s.activeMap := by
  rw [record_eq]

@[simp] theorem record_activeTicket : (s.record g step).activeTicket = s.activeTicket := by
  rw [record_eq]

@[simp] theorem record_summary : (s.record g step).summary = s.summary := by
  rw [record_eq]

end

/-- A request issues the ticket with the next number and leaves what is in use alone. -/
theorem request_spec [EventSink σ] (formula : String) (s : Session α σ) :
    (s.request formula).1 = (issue (s.generation + 1) formula).1 ∧
    (s.request formula).2.settings = s.settings ∧
    (s.request formula).2.generation = s.generation + 1 ∧
    (s.request formula).2.activeMap = s.activeMap ∧
    (s.request formula).2.activeTicket = s.activeTicket ∧
    (s.request formula).2.summary = s.summary := by
  simp [request]

/-- The same map, ticket and summary are in use. -/
structure SameInUse (s s' : Session α σ) : Prop where
  activeMap : s'.activeMap = s.activeMap
  activeTicket : s'.activeTicket = s.activeTicket
  summary : s'.summary = s.summary

namespace SameInUse

variable {s s' s'' : Session α σ}

theorem trans (h : SameInUse s s') (h' : SameInUse s' s'') : SameInUse s s'' :=
  ⟨h'.activeMap.trans h.activeMap, h'.activeTicket.trans h.activeTicket,
    h'.summary.trans h.summary⟩

variable [EventSink σ]

theorem record (g : Nat) (step : RebuildStep) (s : Session α σ) :
    SameInUse s (s.record g step) :=
  ⟨record_activeMap g step s, record_activeTicket g step s, record_summary g step s⟩

theorem request (formula : String) (s : Session α σ) : SameInUse s (s.request formula).2 := by
  obtain ⟨-, -, -, hmap, hticket, hsum⟩ := request_spec formula s
  exact ⟨hmap, hticket, hsum⟩

end SameInUse

theorem issue_generation (g : Nat) (formula : String) : (issue g formula).1.generation = g := by
  unfold issue
  dsimp only
  split <;> rfl

/-- The ticket of a request is the latest one. -/
theorem request_generation [EventSink σ] (formula : String) (s : Session α σ) :
    (s.request formula).1.generation = (s.request formula).2.generation := by
  obtain ⟨hissue, -, hgen, -⟩ := request_spec formula s
  rw [hissue, issue_generation, hgen]

theorem joinTicket_summary_eq_none [Coordinate α] (settings : Tolerances α) (t : Ticket)
    (layout : Layout α) :
    (joinTicket settings t layout).2 = none ↔ t.expr = none := by
  unfold joinTicket
  cases t.expr <;> simp

section

variable [Coordinate α] [EventSink σ]

/-- What `install` leaves behind, the log apart. -/
theorem install_spec (t : Ticket) (layout : Layout α) (s : Session α σ) :
    (s.install t layout).settings = s.settings ∧
    (s.install t layout).generation = s.generation ∧
    (s.install t layout).activeMap = some (joinTicket s.settings t layout).1 ∧
    (s.install t layout).activeTicket = some t ∧
    (s.install t layout).summary = (joinTicket s.settings t layout).2 := by
  unfold install
  cases h : (joinTicket s.settings t layout).2 <;> simp [summarize, h]

theorem complete_latest {t : Ticket} {s : Session α σ} (h : t.generation = s.generation)
    (layout : Layout α) :
    s.complete t layout = (some (joinTicket s.settings t layout).1, s.install t layout) := by
  simp only [complete, h, if_true, (install_spec t layout s).2.2.1]

theorem complete_stale {t : Ticket} {s : Session α σ} (h : t.generation ≠ s.generation)
    (layout : Layout α) :
    s.complete t layout = (none, s.record t.generation (.discarded s.generation)) := by
  rw [complete, if_neg h]

theorem rebuild_failed {formula : String} {render : String → Except ε (Layout α)}
    {message : ε → String} {s : Session α σ} {e : ε}
    (h : render (s.request formula).1.source = .error e) :
    s.rebuild formula render message =
      (.error e,
        (s.request formula).2.record (s.request formula).1.generation (.renderFailed (message e))) := by
  simp only [rebuild, h]

/-- A rebuild whose renderer gives a layout installs the map of its own ticket. -/
theorem rebuild_rendered {formula : String} {render : String → Except ε (Layout α)}
    {message : ε → String} {s : Session α σ} {layout : Layout α}
    (h : render (s.request formula).1.source = .ok layout) :
    s.rebuild formula render message =
      (.ok (some (joinTicket s.settings (s.request formula).1 layout).1),
        ((s.request formula).2.record (s.request formula).1.generation .rendered).install
          (s.request formula).1 layout) := by
  have hlatest := request_generation formula s
  rw [← record_generation (s.request formula).1.generation .rendered] at hlatest
  simp only [rebuild, h, complete_latest hlatest, record_settings, (request_spec formula s).2.1]

end

/-! ## Runs -/

inductive Operation (α ε : Type) where
  | request (formula : String)
  | complete (ticket : Ticket) (layout : Layout α)
  | rebuild (formula : String) (render : String → Except ε (Layout α))

/-- A session and the tickets it has issued, the latest at the end. -/
structure Run (α σ : Type) where
  session : Session α σ
  issued : List Ticket

namespace Operation

def isRequest : Operation α ε → Bool
  | request _ => true
  | complete _ _ => false
  | rebuild _ _ => true

/-- Only a ticket that has been issued can be completed. -/
def Allowed (r : Run α σ) : Operation α ε → Prop
  | complete t _ => t ∈ r.issued
  | _ => True

def perform [Coordinate α] [EventSink σ] (message : ε → String) (r : Run α σ) :
    Operation α ε → Run α σ
  | request formula =>
    ⟨(r.session.request formula).2, r.issued ++ [(r.session.request formula).1]⟩
  | complete t layout => ⟨(r.session.complete t layout).2, r.issued⟩
  | rebuild formula render =>
    ⟨(r.session.rebuild formula render message).2, r.issued ++ [(r.session.request formula).1]⟩

/-- What an operation makes of a run: one case for each way in which it can go. -/
inductive Performed [Coordinate α] [EventSink σ] (message : ε → String) (r : Run α σ) :
    Operation α ε → Run α σ → Prop where
  | request (formula : String) : Performed message r (.request formula)
      ⟨(r.session.request formula).2, r.issued ++ [(r.session.request formula).1]⟩
  | stale {t : Ticket} (layout : Layout α) : t.generation ≠ r.session.generation →
      Performed message r (.complete t layout)
        ⟨r.session.record t.generation (.discarded r.session.generation), r.issued⟩
  | latest {t : Ticket} (layout : Layout α) : t.generation = r.session.generation →
      Performed message r (.complete t layout) ⟨r.session.install t layout, r.issued⟩
  | failed {formula : String} {render : String → Except ε (Layout α)} {e : ε} :
      render (r.session.request formula).1.source = .error e →
      Performed message r (.rebuild formula render)
        ⟨(r.session.request formula).2.record (r.session.request formula).1.generation
          (.renderFailed (message e)), r.issued ++ [(r.session.request formula).1]⟩
  | rendered {formula : String} {render : String → Except ε (Layout α)} {layout : Layout α} :
      render (r.session.request formula).1.source = .ok layout →
      Performed message r (.rebuild formula render)
        ⟨((r.session.request formula).2.record (r.session.request formula).1.generation
          .rendered).install (r.session.request formula).1 layout,
          r.issued ++ [(r.session.request formula).1]⟩

theorem performed [Coordinate α] [EventSink σ] (message : ε → String) (r : Run α σ)
    (op : Operation α ε) : Performed message r op (op.perform message r) := by
  cases op with
  | request formula => exact .request formula
  | complete t layout =>
    rw [perform]
    by_cases hg : t.generation = r.session.generation
    · rw [complete_latest hg]
      exact .latest layout hg
    · rw [complete_stale hg]
      exact .stale layout hg
  | rebuild formula render =>
    rw [perform]
    cases hr : render (r.session.request formula).1.source with
    | error e =>
      rw [rebuild_failed hr]
      exact .failed hr
    | ok layout =>
      rw [rebuild_rendered hr]
      exact .rendered hr

end Operation

namespace Run

def start (settings : Tolerances α) (sink : Option σ) : Run α σ :=
  ⟨Session.fresh settings sink, []⟩

/-- `Leads message r ops r'`: the operations `ops`, each allowed at its turn, lead
from `r` to `r'`. -/
inductive Leads [Coordinate α] [EventSink σ] (message : ε → String) :
    Run α σ → List (Operation α ε) → Run α σ → Prop where
  | refl (r : Run α σ) : Leads message r [] r
  | step {r r' : Run α σ} {ops : List (Operation α ε)} (op : Operation α ε) :
      Leads message r ops r' → op.Allowed r' → Leads message r (ops ++ [op]) (op.perform message r')

variable [Coordinate α]

/-- What every run keeps. -/
structure Consistent (settings : Tolerances α) (r : Run α σ) : Prop where
  settings_eq : r.session.settings = settings
  generation_eq : r.session.generation = r.issued.length
  /-- Tickets are numbered from one in the order in which they were issued. -/
  numbered : ∀ (i : Nat) (t : Ticket), r.issued[i]? = some t →
    ∃ formula, t = (issue (i + 1) formula).1
  /-- What is in use was made from an issued ticket and a layout. -/
  made : ∀ t, r.session.activeTicket = some t → t ∈ r.issued ∧
    ∃ layout, r.session.activeMap = some (joinTicket settings t layout).1 ∧
      r.session.summary = (joinTicket settings t layout).2
  unused : r.session.activeTicket = none →
    r.session.activeMap = none ∧ r.session.summary = none

namespace Consistent

variable {settings : Tolerances α} {r : Run α σ}

theorem start (settings : Tolerances α) (sink : Option σ) :
    Consistent settings (Run.start settings sink) where
  settings_eq := rfl
  generation_eq := rfl
  numbered := by simp [Run.start]
  made := by simp [Run.start, fresh]
  unused := fun _ => ⟨rfl, rfl⟩

theorem generation_getElem (h : Consistent settings r) {i : Nat} (hi : i < r.issued.length) :
    r.issued[i].generation = i + 1 := by
  obtain ⟨formula, hf⟩ := h.numbered i _ (List.getElem?_eq_getElem hi)
  rw [hf, issue_generation]

theorem generation_le (h : Consistent settings r) {t : Ticket} (ht : t ∈ r.issued) :
    t.generation ≤ r.session.generation := by
  obtain ⟨i, hi, rfl⟩ := List.getElem_of_mem ht
  rw [h.generation_getElem hi, h.generation_eq]
  exact hi

/-- The number of an issued ticket tells whether it is the latest one. -/
theorem generation_eq_iff (h : Consistent settings r) {t : Ticket} (ht : t ∈ r.issued) :
    t.generation = r.session.generation ↔ r.issued.getLast? = some t := by
  obtain ⟨i, hi, rfl⟩ := List.getElem_of_mem ht
  rw [h.generation_getElem hi, h.generation_eq, List.getLast?_eq_getElem?]
  constructor
  · intro heq
    rw [← heq, Nat.add_sub_cancel, List.getElem?_eq_getElem hi]
  · intro hlast
    have hlt : r.issued.length - 1 < r.issued.length := by omega
    rw [List.getElem?_eq_getElem hlt, Option.some.injEq] at hlast
    have hgen := h.generation_getElem hlt
    rw [hlast, h.generation_getElem hi] at hgen
    omega

/-- A map is in use when a ticket is. -/
theorem activeMap_isSome_iff (h : Consistent settings r) :
    r.session.activeMap.isSome ↔ r.session.activeTicket.isSome := by
  cases hticket : r.session.activeTicket with
  | none => simp [(h.unused hticket).1]
  | some t =>
    obtain ⟨-, layout, hmap, -⟩ := h.made t hticket
    simp [hmap]

theorem summary_eq_none_iff (h : Consistent settings r) :
    r.session.summary = none ↔ ∀ t, r.session.activeTicket = some t → t.expr = none := by
  cases hticket : r.session.activeTicket with
  | none => simp [(h.unused hticket).2]
  | some t =>
    obtain ⟨-, layout, -, hsum⟩ := h.made t hticket
    simp [hsum, joinTicket_summary_eq_none]

/-! ### Every operation keeps it -/

/-- What stays in use was made as it was. -/
theorem inUse (h : Consistent settings r) {s : Session α σ} (hs : SameInUse r.session s) :
    (∀ t, s.activeTicket = some t → t ∈ r.issued ∧
      ∃ layout, s.activeMap = some (joinTicket settings t layout).1 ∧
        s.summary = (joinTicket settings t layout).2) ∧
    (s.activeTicket = none → s.activeMap = none ∧ s.summary = none) := by
  rw [hs.activeMap, hs.activeTicket, hs.summary]
  exact ⟨h.made, h.unused⟩

variable [EventSink σ]

/-- A log entry concerns none of it. -/
theorem record (h : Consistent settings r) (g : Nat) (step : RebuildStep) :
    Consistent settings ⟨r.session.record g step, r.issued⟩ where
  settings_eq := by rw [record_settings, h.settings_eq]
  generation_eq := by rw [record_generation, h.generation_eq]
  numbered := h.numbered
  made := (h.inUse (.record g step r.session)).1
  unused := (h.inUse (.record g step r.session)).2

theorem request (h : Consistent settings r) (formula : String) :
    Consistent settings
      ⟨(r.session.request formula).2, r.issued ++ [(r.session.request formula).1]⟩ where
  settings_eq := (request_spec formula r.session).2.1.trans h.settings_eq
  generation_eq := by
    have hgen := (request_spec formula r.session).2.2.1
    simp only [hgen, h.generation_eq, List.length_append, List.length_singleton]
  numbered := by
    intro i t ht
    rcases Nat.lt_trichotomy i r.issued.length with hlt | heq | hgt
    · rw [List.getElem?_append_left hlt] at ht
      exact h.numbered i t ht
    · subst heq
      rw [List.getElem?_append_right (Nat.le_refl _), Nat.sub_self, List.getElem?_cons_zero,
        Option.some.injEq] at ht
      refine ⟨formula, ?_⟩
      rw [← ht, (request_spec formula r.session).1, h.generation_eq]
    · have hlen : (r.issued ++ [(r.session.request formula).1]).length ≤ i := by
        rw [List.length_append, List.length_singleton]
        omega
      rw [List.getElem?_eq_none hlen] at ht
      exact absurd ht (by simp)
  made := by
    intro t ht
    obtain ⟨hmem, hlayout⟩ := (h.inUse (.request formula r.session)).1 t ht
    exact ⟨List.mem_append_left _ hmem, hlayout⟩
  unused := (h.inUse (.request formula r.session)).2

theorem install (h : Consistent settings r) {t : Ticket} (ht : t ∈ r.issued) (layout : Layout α) :
    Consistent settings ⟨r.session.install t layout, r.issued⟩ := by
  obtain ⟨hset, hgen, hmap, hticket, hsum⟩ := install_spec t layout r.session
  refine ⟨hset.trans h.settings_eq, hgen.trans h.generation_eq, h.numbered, ?_, ?_⟩
  · intro t' ht'
    obtain rfl : t = t' := Option.some.inj (hticket.symm.trans ht')
    rw [hmap, hsum, h.settings_eq]
    exact ⟨ht, layout, rfl, rfl⟩
  · intro hnone
    exact absurd (hticket.symm.trans hnone) (Option.some_ne_none t)

theorem performed {message : ε → String} {op : Operation α ε} {r' : Run α σ}
    (h : Consistent settings r) (hop : op.Allowed r) (hp : op.Performed message r r') :
    Consistent settings r' := by
  cases hp with
  | request formula => exact h.request formula
  | stale layout _ => exact h.record _ _
  | latest layout _ => exact h.install hop layout
  | failed _ => exact (h.request _).record _ _
  | rendered _ =>
    exact ((h.request _).record _ _).install
      (List.mem_append_right _ (List.mem_singleton_self _)) _

end Consistent

theorem Leads.consistent [EventSink σ] {settings : Tolerances α} {message : ε → String}
    {r r' : Run α σ} {ops : List (Operation α ε)} (h : Leads message r ops r')
    (hr : Consistent settings r) : Consistent settings r' := by
  induction h with
  | refl => exact hr
  | step op _ hop ih => exact ih.performed hop (op.performed message _)

end Run
end Session
end FormulaMap

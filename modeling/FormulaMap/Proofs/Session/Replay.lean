/-
The log of a run, and what can be read off it.

Every operation appends one block to the log.  Which block it is depends on the
operation, on the ticket that it concerns, and on whether that ticket is still the
latest one; `Block` lists the possibilities, and `Logs` says that a log is made of the
blocks of a list of operations, one after another.

A reader of the events needs nothing else to know the state of the session.  `Replay`
counts the requests and keeps the counts of the last join until a map is installed, and
`log_determines_state` says that it agrees with the session after every run.
-/
import FormulaMap.Proofs.Session.Soundness
import FormulaMap.Trace.Rebuild

namespace FormulaMap

/-! ## Replaying events -/

/-- The counts that an event of a join carries. -/
def Event.counts? (e : Event) : Option JoinSummary :=
  let data := e.data.getD .null
  match data.field "integers", data.field "operators", data.field "mixed_numbers" with
  | .int numerals, .int operators, .int mixed =>
    some ⟨numerals.toNat, operators.toNat, mixed.toNat⟩
  | _, _, _ => none

/-- What a reader of the events of a session knows. -/
structure Replay where
  /-- The number of requests. -/
  generation : Nat
  /-- The generation of the last map that was installed. -/
  active : Option Int
  summary : Option JoinSummary
  /-- The counts of the map that is being made, if it has been joined. -/
  counts : Option JoinSummary

namespace Replay

def start : Replay := ⟨0, none, none, none⟩

def next (p : Replay) (e : Event) : Replay :=
  match e.kind with
  | .request => { p with generation := p.generation + 1 }
  | .build => { p with counts := none }
  | .correlate => { p with counts := e.counts? }
  | .install => { p with active := e.generation, summary := p.counts }
  | _ => p

def run (p : Replay) (log : List LogEntry) : Replay :=
  (log.map LogEntry.event).foldl next p

theorem run_append (p : Replay) (log more : List LogEntry) :
    p.run (log ++ more) = (p.run log).run more := by
  simp only [run, List.map_append, List.foldl_append]

/-- The reader knows the state of the session. -/
structure Agrees {α σ : Type} (p : Replay) (s : Session α σ) : Prop where
  generation : p.generation = s.generation
  active : p.active = s.activeTicket.map fun t => (t.generation : Int)
  summary : p.summary = s.summary

end Replay

/-! ## Blocks of the log -/

/-- The remarks on the formula of a ticket. -/
def Ticket.remarks (t : Ticket) : List String :=
  (Instrumented.ofFormula t.formula).2.2.map ParseWarning.message

/-- A sink that keeps what it is called with has kept all of it. -/
theorem EventSink.foldl_append_list (entries kept : List LogEntry) :
    entries.foldl EventSink.append kept = kept ++ entries := by
  induction entries generalizing kept with
  | nil => exact (List.append_nil kept).symm
  | cons e entries ih => rw [List.foldl_cons, ih, EventSink.append, List.append_cons]; rfl

namespace Session

variable {α σ ε : Type}

/-- What a request writes about the ticket that it issues. -/
inductive RequestBlock (t : Ticket) : List LogEntry → Prop where
  | instrumented : t.isInstrumented = true →
      RequestBlock t
        [⟨t.generation, .requested t.formula⟩, ⟨t.generation, .instrumented t.remarks⟩]
  | refused : t.isInstrumented = false →
      RequestBlock t
        [⟨t.generation, .requested t.formula⟩,
         ⟨t.generation, .notInstrumented t.formula t.outcome.reason t.remarks⟩]

theorem requestBlock_issue (g : Nat) (formula : String) :
    RequestBlock (issue g formula).1
      [⟨g, .requested formula⟩, ⟨g, (issue g formula).2⟩] := by
  unfold issue
  dsimp only
  split
  · next h => exact .instrumented h
  · next h => exact .refused (Bool.eq_false_iff.2 h)

/-- Only an instrumented ticket has an expression to join with. -/
theorem expr_issue_eq_none_iff (g : Nat) (formula : String) :
    (issue g formula).1.expr = none ↔ (issue g formula).1.isInstrumented = false := by
  constructor
  · intro hnone
    rw [Bool.eq_false_iff]
    intro hinstrumented
    obtain ⟨-, -, e, he, -⟩ := issue_instrumented hinstrumented
    rw [he] at hnone
    cases hnone
  · unfold issue
    dsimp only
    split
    · next h => exact fun hnot => absurd (hnot.symm.trans h) Bool.false_ne_true
    · exact fun _ => rfl

section

variable [Coordinate α]

/-- What putting the map of a layout into use writes. -/
inductive InstallBlock (settings : Tolerances α) (t : Ticket) (layout : Layout α) :
    List LogEntry → Prop where
  | joined {summary : JoinSummary} : t.isInstrumented = true →
      (joinTicket settings t layout).2 = some summary →
      InstallBlock settings t layout
        [⟨t.generation, .built (surfaceOf settings layout).atoms.length⟩, ⟨t.generation, .enhanced⟩,
         ⟨t.generation, .joined summary⟩, ⟨t.generation, .installed⟩]
  | plain : t.isInstrumented = false → (joinTicket settings t layout).2 = none →
      InstallBlock settings t layout
        [⟨t.generation, .built (surfaceOf settings layout).atoms.length⟩, ⟨t.generation, .enhanced⟩,
         ⟨t.generation, .installed⟩]

/-- `Block settings message issued op t b`: when `issued` are the tickets so far, the
operation `op` concerns the ticket `t` and writes `b`. -/
inductive Block (settings : Tolerances α) (message : ε → String) (issued : List Ticket) :
    Operation α ε → Ticket → List LogEntry → Prop where
  | request {formula : String} {t : Ticket} {b : List LogEntry} :
      t = (issue (issued.length + 1) formula).1 → RequestBlock t b →
      Block settings message issued (.request formula) t b
  | stale {t : Ticket} {layout : Layout α} : t ∈ issued → issued.getLast? ≠ some t →
      Block settings message issued (.complete t layout) t
        [⟨t.generation, .discarded issued.length⟩]
  | latest {t : Ticket} {layout : Layout α} {b : List LogEntry} : issued.getLast? = some t →
      InstallBlock settings t layout b →
      Block settings message issued (.complete t layout) t b
  | failed {formula : String} {render : String → Except ε (Layout α)} {t : Ticket}
      {b : List LogEntry} {e : ε} :
      t = (issue (issued.length + 1) formula).1 → RequestBlock t b → render t.source = .error e →
      Block settings message issued (.rebuild formula render) t
        (b ++ [⟨t.generation, .renderFailed (message e)⟩])
  | rendered {formula : String} {render : String → Except ε (Layout α)} {t : Ticket}
      {layout : Layout α} {b c : List LogEntry} :
      t = (issue (issued.length + 1) formula).1 → RequestBlock t b → render t.source = .ok layout →
      InstallBlock settings t layout c →
      Block settings message issued (.rebuild formula render) t
        (b ++ ⟨t.generation, .rendered⟩ :: c)

/-- `Logs settings message ops issued log`: the operations issue the tickets and write
the log, one block for each of them. -/
inductive Logs (settings : Tolerances α) (message : ε → String) :
    List (Operation α ε) → List Ticket → List LogEntry → Prop where
  | nil : Logs settings message [] [] []
  | snoc {ops : List (Operation α ε)} {issued : List Ticket} {log b : List LogEntry}
      {op : Operation α ε} {t : Ticket} :
      Logs settings message ops issued log → Block settings message issued op t b →
      Logs settings message (ops ++ [op]) (issued ++ if op.isRequest then [t] else []) (log ++ b)

/-! ## Every event concerns the ticket of its block -/

theorem RequestBlock.generation_eq {t : Ticket} {b : List LogEntry} (h : RequestBlock t b) :
    ∀ e ∈ b, e.generation = t.generation := by
  cases h <;> simp

theorem InstallBlock.generation_eq {settings : Tolerances α} {t : Ticket} {layout : Layout α}
    {b : List LogEntry} (h : InstallBlock settings t layout b) :
    ∀ e ∈ b, e.generation = t.generation := by
  cases h <;> simp

theorem Block.generation_eq {settings : Tolerances α} {message : ε → String}
    {issued : List Ticket} {op : Operation α ε} {t : Ticket} {b : List LogEntry}
    (h : Block settings message issued op t b) : ∀ e ∈ b, e.generation = t.generation := by
  cases h with
  | request _ hrequest => exact hrequest.generation_eq
  | stale _ _ => simp
  | latest _ hinstall => exact hinstall.generation_eq
  | failed _ hrequest _ =>
    intro e he
    rcases List.mem_append.1 he with he | he
    · exact hrequest.generation_eq e he
    · rw [List.mem_singleton.1 he]
  | rendered _ hrequest _ hinstall =>
    intro e he
    rcases List.mem_append.1 he with he | he
    · exact hrequest.generation_eq e he
    · rcases List.mem_cons.1 he with rfl | he
      · rfl
      · exact hinstall.generation_eq e he

theorem Block.mem_issued {settings : Tolerances α} {message : ε → String}
    {issued : List Ticket} {op : Operation α ε} {t : Ticket} {b : List LogEntry}
    (h : Block settings message issued op t b) :
    t ∈ issued ++ if op.isRequest then [t] else [] := by
  cases h with
  | stale hissued _ => exact List.mem_append_left _ hissued
  | latest hlast _ => exact List.mem_append_left _ (List.mem_of_getLast? hlast)
  | request _ _ => exact List.mem_append_right _ (List.mem_singleton_self t)
  | failed _ _ _ => exact List.mem_append_right _ (List.mem_singleton_self t)
  | rendered _ _ _ _ => exact List.mem_append_right _ (List.mem_singleton_self t)

theorem Logs.concerns {settings : Tolerances α} {message : ε → String}
    {ops : List (Operation α ε)} {issued : List Ticket} {log : List LogEntry}
    (h : Logs settings message ops issued log) :
    ∀ e ∈ log, ∃ t ∈ issued, e.generation = t.generation := by
  induction h with
  | nil => exact fun e he => absurd he List.not_mem_nil
  | @snoc _ _ _ b _ t _ hblock ih =>
    intro e he
    rcases List.mem_append.1 he with he | he
    · obtain ⟨u, hu, hgen⟩ := ih e he
      exact ⟨u, List.mem_append_left _ hu, hgen⟩
    · exact ⟨t, hblock.mem_issued, hblock.generation_eq e he⟩

theorem Run.Consistent.expr_eq_none_iff {settings : Tolerances α} {r : Run α σ}
    (h : r.Consistent settings) {t : Ticket} (ht : t ∈ r.issued) :
    t.expr = none ↔ t.isInstrumented = false := by
  obtain ⟨i, hi, rfl⟩ := List.getElem_of_mem ht
  obtain ⟨formula, hformula⟩ := h.numbered i _ (List.getElem?_eq_getElem hi)
  rw [hformula]
  exact expr_issue_eq_none_iff _ _

end

/-! ## What the operations write -/

variable [EventSink σ]

/-- `b` is appended to the log, and the sink, if there is one, is called with the entries
of `b` one after another. -/
structure Appends (b : List LogEntry) (s s' : Session α σ) : Prop where
  log : s'.log = s.log ++ b
  sink : s'.sink = s.sink.map fun k => b.foldl EventSink.append k

namespace Appends

variable {b c : List LogEntry} {s s' s'' : Session α σ}

theorem nil (hlog : s'.log = s.log) (hsink : s'.sink = s.sink) : Appends [] s s' where
  log := by rw [hlog, List.append_nil]
  sink := by
    rw [hsink]
    cases s.sink <;> simp

theorem trans (h : Appends b s s') (h' : Appends c s' s'') : Appends (b ++ c) s s'' where
  log := by rw [h'.log, h.log, List.append_assoc]
  sink := by
    rw [h'.sink, h.sink]
    cases s.sink <;> simp

theorem record (g : Nat) (step : RebuildStep) (s : Session α σ) :
    Appends [⟨g, step⟩] s (s.record g step) := by
  rw [record_eq]
  exact ⟨rfl, rfl⟩

/-- What is in use is no part of the log. -/
theorem inUse (h : Appends b s s') (hlog : s''.log = s'.log) (hsink : s''.sink = s'.sink) :
    Appends b s s'' := ⟨hlog.trans h.log, hsink.trans h.sink⟩

end Appends

/-- A request appends the block of its ticket. -/
theorem request_appends (formula : String) (s : Session α σ) :
    ∃ b, RequestBlock (s.request formula).1 b ∧ Appends b s (s.request formula).2 := by
  refine ⟨_, requestBlock_issue (s.generation + 1) formula, ?_⟩
  have hnumbered : Appends [] s { s with generation := s.generation + 1 } := .nil rfl rfl
  exact (hnumbered.trans (.record _ _ _)).trans (.record _ _ _)

/-- The counts of a join are logged when there was one. -/
theorem summarize_appends (g : Nat) (summary : Option JoinSummary) (s : Session α σ) :
    Appends (summary.toList.map fun r => ⟨g, .joined r⟩) s (s.summarize g summary) := by
  cases summary with
  | none => exact .nil rfl rfl
  | some r =>
    have hsummary : Appends [] s { s with summary := some r } := .nil rfl rfl
    exact hsummary.trans (.record g (.joined r) _)

variable [Coordinate α]

/-- The entries of putting a map into use. -/
theorem install_entries (t : Ticket) (layout : Layout α) (s : Session α σ) :
    Appends
      ([⟨t.generation, .built (surfaceOf s.settings layout).atoms.length⟩] ++
        [⟨t.generation, .enhanced⟩] ++
        ((joinTicket s.settings t layout).2.toList.map fun r => ⟨t.generation, .joined r⟩) ++
        [⟨t.generation, .installed⟩]) s (s.install t layout) := by
  have hbuilt := Appends.record t.generation (.built (surfaceOf s.settings layout).atoms.length) s
  have henhanced := hbuilt.trans (.record t.generation .enhanced _)
  have hsummarized := henhanced.trans
    (summarize_appends t.generation (joinTicket s.settings t layout).2 _)
  refine (hsummarized.inUse ?_ ?_).trans (.record t.generation .installed _) <;> rfl

theorem install_appends {t : Ticket} (ht : t.expr = none ↔ t.isInstrumented = false)
    (layout : Layout α) (s : Session α σ) :
    ∃ b, InstallBlock s.settings t layout b ∧ Appends b s (s.install t layout) := by
  have hentries := install_entries t layout s
  have hnone := joinTicket_summary_eq_none s.settings t layout
  cases hsummary : (joinTicket s.settings t layout).2 with
  | none =>
    rw [hsummary] at hentries
    exact ⟨_, .plain (ht.1 (hnone.1 hsummary)) hsummary, hentries⟩
  | some summary =>
    have hinstrumented : t.isInstrumented = true := by
      rw [← Bool.not_eq_false, ← ht, ← hnone, hsummary]
      exact Option.some_ne_none summary
    rw [hsummary] at hentries
    exact ⟨_, .joined hinstrumented hsummary, hentries⟩

namespace Run

variable {settings : Tolerances α} {message : ε → String}

/-- An operation appends its block, and issues the ticket of the block if it is a
request. -/
theorem appends_of_performed {r r' : Run α σ} {op : Operation α ε} (h : Consistent settings r)
    (hop : op.Allowed r) (hp : op.Performed message r r') :
    ∃ t b, Block settings message r.issued op t b ∧ Appends b r.session r'.session ∧
      r'.issued = r.issued ++ if op.isRequest then [t] else [] := by
  have hticket : ∀ formula, (r.session.request formula).1 =
      (issue (r.issued.length + 1) formula).1 := by
    intro formula
    rw [(request_spec formula r.session).1, h.generation_eq]
  cases hp with
  | request formula =>
    obtain ⟨b, hb, happends⟩ := request_appends formula r.session
    exact ⟨_, b, .request (hticket formula) hb, happends, rfl⟩
  | stale layout hstale =>
    rw [h.generation_eq]
    exact ⟨_, _, .stale hop fun hlast => hstale ((h.generation_eq_iff hop).2 hlast),
      .record _ _ _, (List.append_nil _).symm⟩
  | latest layout hlatest =>
    obtain ⟨b, hb, happends⟩ := install_appends (h.expr_eq_none_iff hop) layout r.session
    rw [h.settings_eq] at hb
    exact ⟨_, b, .latest ((h.generation_eq_iff hop).1 hlatest) hb, happends,
      (List.append_nil _).symm⟩
  | failed hr =>
    obtain ⟨b, hb, happends⟩ := request_appends _ r.session
    exact ⟨_, _, .failed (hticket _) hb hr, happends.trans (.record _ _ _), rfl⟩
  | @rendered formula _ layout hr =>
    obtain ⟨b, hb, happends⟩ := request_appends formula r.session
    have hexpr := expr_issue_eq_none_iff (r.issued.length + 1) formula
    rw [← hticket] at hexpr
    obtain ⟨c, hc, hinstall⟩ := install_appends hexpr layout
      ((r.session.request formula).2.record (r.session.request formula).1.generation .rendered)
    rw [record_settings, (request_spec formula r.session).2.1, h.settings_eq] at hc
    exact ⟨_, _, .rendered (hticket formula) hb hr hc,
      happends.trans ((Appends.record _ _ _).trans hinstall), rfl⟩

/-- A run only appends. -/
theorem Leads.appends {r r' : Run α σ} {ops : List (Operation α ε)} (h : Leads message r ops r')
    (hr : Consistent settings r) : ∃ b, Appends b r.session r'.session := by
  induction h with
  | refl => exact ⟨[], .nil rfl rfl⟩
  | step op hlead hop ih =>
    obtain ⟨b, hb⟩ := ih
    obtain ⟨-, c, -, hc, -⟩ := appends_of_performed (hlead.consistent hr) hop (op.performed message _)
    exact ⟨b ++ c, hb.trans hc⟩

theorem Leads.logs {sink : Option σ} {ops : List (Operation α ε)} {r : Run α σ}
    (h : Leads message (start settings sink) ops r) :
    Logs settings message ops r.issued r.session.log := by
  have hstart := Consistent.start settings sink
  generalize hfirst : start settings sink = first at h
  induction h with
  | refl => exact hfirst ▸ .nil
  | step op hlead hop ih =>
    obtain ⟨t, b, hblock, happends, hissued⟩ :=
      appends_of_performed (hlead.consistent (hfirst ▸ hstart)) hop (op.performed message _)
    rw [happends.log, hissued]
    exact .snoc ih hblock

end Run

/-! ## What a reader makes of a block -/

section

variable {settings : Tolerances α} {t : Ticket} {b : List LogEntry}

theorem RequestBlock.run (h : RequestBlock t b) (p : Replay) :
    p.run b = { p with generation := p.generation + 1 } := by
  cases h <;> rfl

/-- A reader learns from an installing block what was joined, and forgets what was in
use before. -/
theorem InstallBlock.run {layout : Layout α} (h : InstallBlock settings t layout b) (p : Replay) :
    (p.run b).generation = p.generation ∧ (p.run b).active = some (t.generation : Int) ∧
      (p.run b).summary = (joinTicket settings t layout).2 := by
  cases h with
  | joined _ hsummary => exact ⟨rfl, rfl, hsummary.symm⟩
  | plain _ hnone => exact ⟨rfl, rfl, hnone.symm⟩

end

end Session

namespace Replay
namespace Agrees

variable {α σ ε : Type} {t : Ticket} {b : List LogEntry} {p : Replay} {s : Session α σ}

theorem start (settings : Tolerances α) (sink : Option σ) :
    Replay.start.Agrees (Session.fresh settings sink) := ⟨rfl, rfl, rfl⟩

variable [EventSink σ]

theorem request (h : p.Agrees s) (hb : Session.RequestBlock t b) (formula : String) :
    (p.run b).Agrees (s.request formula).2 := by
  rw [hb.run]
  obtain ⟨-, -, hgen, -, hticket, hsum⟩ := Session.request_spec formula s
  exact ⟨by rw [hgen, h.generation], by rw [hticket]; exact h.active, h.summary.trans hsum.symm⟩

theorem record (h : p.Agrees s) (g : Nat) (step : RebuildStep) : p.Agrees (s.record g step) where
  generation := by rw [Session.record_generation, h.generation]
  active := by rw [Session.record_activeTicket, h.active]
  summary := by rw [Session.record_summary, h.summary]

variable [Coordinate α]

theorem install (h : p.Agrees s) {layout : Layout α}
    (hb : Session.InstallBlock s.settings t layout b) : (p.run b).Agrees (s.install t layout) := by
  obtain ⟨hgen, hact, hsum⟩ := hb.run p
  obtain ⟨-, hgen', -, hticket, hsum'⟩ := Session.install_spec t layout s
  exact ⟨by rw [hgen, hgen', h.generation], by rw [hact, hticket]; rfl, hsum.trans hsum'.symm⟩

open Session

/-- A reader who knows the state before an operation knows the state after it from the
block that it writes. -/
theorem perform {settings : Tolerances α} {message : ε → String} {r : Run α σ}
    (h : p.Agrees r.session) (hr : r.Consistent settings) {op : Operation α ε}
    (hb : Block settings message r.issued op t b) :
    (p.run b).Agrees (op.perform message r).session := by
  have hticket : ∀ {formula u}, u = (issue (r.issued.length + 1) formula).1 →
      u = (r.session.request formula).1 := by
    intro formula u hu
    rw [(request_spec formula r.session).1, hr.generation_eq, hu]
  cases hb with
  | request _ hrequest => exact h.request hrequest _
  | @stale _ layout hissued hnot =>
    show Agrees _ (r.session.complete t layout).2
    rw [complete_stale fun hg => hnot ((hr.generation_eq_iff hissued).1 hg)]
    exact h.record _ _
  | @latest _ layout _ hlast hinstall =>
    show Agrees _ (r.session.complete t layout).2
    have hissued : t ∈ r.issued := List.mem_of_getLast? hlast
    rw [complete_latest ((hr.generation_eq_iff hissued).2 hlast)]
    rw [← hr.settings_eq] at hinstall
    exact h.install hinstall
  | @failed formula render _ b e ht hrequest hrender =>
    show Agrees _ (r.session.rebuild formula render message).2
    obtain rfl := hticket ht
    rw [rebuild_failed hrender, run_append]
    exact (h.request hrequest formula).record _ _
  | @rendered formula render _ layout b c ht hrequest hrender hinstall =>
    show Agrees _ (r.session.rebuild formula render message).2
    obtain rfl := hticket ht
    have hsettings : ((r.session.request formula).2.record
        (r.session.request formula).1.generation .rendered).settings = settings := by
      rw [record_settings, (request_spec formula r.session).2.1, hr.settings_eq]
    rw [← hsettings] at hinstall
    rw [rebuild_rendered hrender, run_append]
    have hrecorded := (h.request hrequest formula).record
      (r.session.request formula).1.generation .rendered
    -- that a layout was rendered tells a reader nothing
    have hinstalled := hrecorded.install hinstall
    exact hinstalled

end Agrees
end Replay

namespace Session
namespace Run

variable {α σ ε : Type} [Coordinate α] [EventSink σ]
variable {settings : Tolerances α} {message : ε → String}

theorem Leads.agrees {r r' : Run α σ} {ops : List (Operation α ε)} (h : Leads message r ops r')
    (hr : Consistent settings r) (hp : (Replay.start.run r.session.log).Agrees r.session) :
    (Replay.start.run r'.session.log).Agrees r'.session := by
  induction h with
  | refl => exact hp
  | step op hlead hop ih =>
    have hcons := hlead.consistent hr
    obtain ⟨t, b, hblock, happends, -⟩ := appends_of_performed hcons hop (op.performed message _)
    rw [happends.log, Replay.run_append]
    exact ih.perform hcons hblock

/-- The log of a run has one block for each operation, every entry concerns a ticket of
the session, the sink is called with the same entries in the same order, nothing that was
written is changed later, and replaying the events gives the state of the session back. -/
theorem log_determines_state {sink : Option σ} {ops : List (Operation α ε)} {r : Run α σ}
    (h : Leads message (start settings sink) ops r) :
    Logs settings message ops r.issued r.session.log ∧
    (∀ e ∈ r.session.log, ∃ t ∈ r.issued, e.generation = t.generation) ∧
    r.session.sink = (sink.map fun k => r.session.log.foldl EventSink.append k) ∧
    (∀ (more : List (Operation α ε)) (r' : Run α σ), Leads message r more r' →
      r.session.log <+: r'.session.log) ∧
    (Replay.start.run r.session.log).Agrees r.session := by
  have hstart := Consistent.start settings sink
  refine ⟨h.logs, h.logs.concerns, ?_, ?_, h.agrees hstart (.start settings sink)⟩
  · obtain ⟨b, hb⟩ := h.appends hstart
    have hlog : r.session.log = b := hb.log
    rw [hlog]
    exact hb.sink
  · intro more r' hmore
    obtain ⟨b, hb⟩ := hmore.appends (h.consistent hstart)
    exact ⟨b, hb.log.symm⟩

/-- A ticket that is overtaken by two rebuilds, of which the first fails in the renderer
and the second is installed. -/
theorem overtaken_log_determines_state :
    let layout : Layout Rat := .node ⟨["katex-html"], "", ⟨0, 0, 10, 10⟩, []⟩ []
    let first : Operation Rat String := .request "1+2"
    let second : Operation Rat String := .rebuild "3" fun _ => .error "no glyphs"
    let third : Operation Rat String := .complete (issue 1 "1+2").1 layout
    let fourth : Operation Rat String := .rebuild "" fun _ => .ok layout
    let fresh : Run Rat (List LogEntry) := start .standard (some [])
    let r := [first, second, third, fourth].foldl (fun r op => op.perform id r) fresh
    Leads id fresh [first, second, third, fourth] r ∧
      r.session.log.map (fun e => (e.event.kind, e.generation)) =
        [(.request, 1), (.instrument, 1), (.request, 2), (.instrument, 2), (.error, 2),
         (.discard, 1), (.request, 3), (.error, 3), (.render, 3), (.build, 3), (.enhance, 3),
         (.install, 3)] ∧
      r.session.sink = some r.session.log ∧
      (Replay.start.run r.session.log).Agrees r.session := by
  intro layout first second third fourth fresh r
  let overtaken : Run Rat (List LogEntry) := second.perform id (first.perform id fresh)
  have hovertaken : Leads id fresh [first, second] overtaken :=
    .step second (.step first (.refl _) trivial) trivial
  have hissued : third.Allowed overtaken := List.mem_cons_self
  have hlead : Leads id fresh [first, second, third, fourth] r :=
    .step fourth (.step third hovertaken hissued) trivial
  obtain ⟨-, -, hsink, -, hagrees⟩ := log_determines_state hlead
  rw [Option.map_some, EventSink.foldl_append_list, List.nil_append] at hsink
  exact ⟨hlead, by decide +kernel, hsink, hagrees⟩

end Run
end Session
end FormulaMap

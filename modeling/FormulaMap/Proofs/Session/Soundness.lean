/-
What the map in use says about the expression of its ticket.

A map in use was made from an issued ticket and a layout, and the expression of an
instrumented ticket has a path at every node, so the promises of joining hold in every
state that a run can reach, whatever the layouts were.  The one promise with an
exception is that an operator names the operator that it shows: an operator whose text
is the name of the bucket of the signs is taken for a sign.
-/
import FormulaMap.Proofs.Session.Latest
import FormulaMap.Proofs.Surface.Soundness

namespace FormulaMap

theorem Instrumented.not_isEmpty_of_success {formula : String}
    (h : (Instrumented.ofFormula formula).2.1.success = true) : formula.isEmpty = false := by
  have hempty : (Instrumented.ofFormula "").2.1.success = false := by decide +kernel
  rw [Bool.eq_false_iff]
  intro he
  rw [String.isEmpty_iff.1 he, hempty] at h
  exact Bool.false_ne_true h

namespace Session

variable {α σ ε : Type}

/-- An instrumented ticket is for a formula with an expression, whose nodes have paths. -/
theorem issue_instrumented {g : Nat} {formula : String}
    (h : (issue g formula).1.isInstrumented = true) :
    formula.isEmpty = false ∧ (issue g formula).1.formula = formula ∧
      ∃ e, (issue g formula).1.expr = some e ∧ e.Addressed := by
  have hsuccess : (Instrumented.ofFormula formula).2.1.success = true := by
    unfold issue at h
    dsimp only at h
    split at h <;> exact h
  refine ⟨Instrumented.not_isEmpty_of_success hsuccess, ?_⟩
  unfold issue
  dsimp only
  rw [if_pos hsuccess]
  refine ⟨rfl, ?_⟩
  unfold Instrumented.ofFormula at hsuccess ⊢
  dsimp only at hsuccess ⊢
  split at hsuccess
  · exact absurd hsuccess Bool.false_ne_true
  · next e he => exact ⟨_, rfl, e.addressed_assignPaths⟩

variable [Coordinate α]

namespace Run

/-- The map in use was joined to the expression of its ticket. -/
theorem Consistent.joined {settings : Tolerances α} {r : Run α σ} (h : Consistent settings r)
    {t : Ticket} {m : SurfaceMap α} (hticket : r.session.activeTicket = some t)
    (hmap : r.session.activeMap = some m) (ht : t.isInstrumented = true) :
    t.formula.isEmpty = false ∧ ∃ e, t.expr = some e ∧ e.Addressed ∧
      ∃ m₀ : SurfaceMap α, m₀.Ready ∧ m = (m₀.join settings e).1 := by
  obtain ⟨hissued, layout, hmade, -⟩ := h.made t hticket
  obtain rfl : (joinTicket settings t layout).1 = m := Option.some.inj (hmade.symm.trans hmap)
  obtain ⟨i, hi, rfl⟩ := List.getElem_of_mem hissued
  obtain ⟨formula, hformula⟩ := h.numbered i _ (List.getElem?_eq_getElem hi)
  rw [hformula] at ht ⊢
  obtain ⟨hne, hsame, e, he, haddressed⟩ := issue_instrumented ht
  refine ⟨by rw [hsame]; exact hne, e, he, haddressed, (surfaceOf settings layout).enhance settings,
    SurfaceMap.ready_refined settings [] layout, ?_⟩
  rw [joinTicket, he]

variable [EventSink σ]

/-- The first rebuild of a session, with a renderer that gives a layout. -/
theorem first_rebuild (settings : Tolerances α) (sink : Option σ) (message : ε → String)
    (formula : String) (layout : Layout α) :
    let op : Operation α ε := .rebuild formula fun _ => .ok layout
    let r := op.perform message (start settings sink)
    Leads message (start settings sink) [op] r ∧
      r.session.activeTicket = some (issue 1 formula).1 ∧
      r.session.activeMap = some (joinTicket settings (issue 1 formula).1 layout).1 := by
  intro op r
  have hrendered : (fun _ => .ok layout : String → Except ε (Layout α))
      ((fresh settings sink).request formula).1.source = .ok layout := rfl
  exact ⟨.step op (.refl _) trivial, (rebuild_rendered_active message hrendered).2,
    (rebuild_rendered_active message hrendered).1⟩

/-- In every state of every run, the map in use is sound for the expression of its
ticket, and an operator shows the operator that it names exactly when its text is not the
name of the bucket of the signs. -/
theorem active_map_sound {settings : Tolerances α} {sink : Option σ} {message : ε → String}
    {ops : List (Operation α ε)} {r : Run α σ} (h : Leads message (start settings sink) ops r)
    {t : Ticket} {m : SurfaceMap α} (hticket : r.session.activeTicket = some t)
    (hmap : r.session.activeMap = some m) (ht : t.isInstrumented = true) :
    ∃ e, t.expr = some e ∧ m.Sound t.formula e ∧
      ∀ n ∈ m.root.leaves, n.kind.isOperator = true → ∀ p, n.path = some p →
        ∃ x, e.nodeAt? p = some x ∧
          (x.ShownBy n ↔ normalizeOperator n.text ≠ Join.signBucket) := by
  have hr : Consistent settings r := h.consistent (Consistent.start settings sink)
  obtain ⟨hne, e, he, haddressed, m₀, hready, rfl⟩ := hr.joined hticket hmap ht
  refine ⟨e, he, SurfaceMap.sound_join hready haddressed hne settings, ?_⟩
  intro n hn hkind p hp
  obtain ⟨x, hx, -, hshown⟩ :=
    SurfaceMap.shownBy_iff_of_mem_leaves hready haddressed hn hkind hp
  exact ⟨x, hx, hshown⟩

/-- The numerals of a sum have the values and the paths of its terms, and the operator
between them is the operator at the root. -/
theorem sum_map_sound :
    let layout : Layout Rat :=
      .node ⟨["katex-html"], "", ⟨0, 0, 30, 10⟩, []⟩
        [.node ⟨["base"], "", ⟨0, 0, 30, 10⟩, []⟩
          [.node ⟨["mord"], "1", ⟨0, 0, 10, 10⟩, []⟩ [],
           .node ⟨["mbin"], "+", ⟨10, 0, 20, 10⟩, []⟩ [],
           .node ⟨["mord"], "2", ⟨20, 0, 30, 10⟩, []⟩ []]]
    let op : Operation Rat String := .rebuild "1+2" fun _ => .ok layout
    let fresh : Run Rat (List LogEntry) := start .standard (some [])
    let r := op.perform id fresh
    Leads id fresh [op] r ∧
      ∃ t m e, r.session.activeTicket = some t ∧ r.session.activeMap = some m ∧
        t.isInstrumented = true ∧ t.expr = some e ∧ m.Sound t.formula e ∧
        m.root.leaves.map (fun n => (n.path, n.value)) =
          [(some "term[0]", some "1"), (some "root", none), (some "term[1]", some "2")] ∧
        ∀ n ∈ m.root.leaves, n.kind.isOperator = true →
          ∃ x, e.nodeAt? "root" = some x ∧ x.ShownBy n := by
  intro layout op fresh r
  let t := (issue 1 "1+2").1
  let m := (joinTicket .standard t layout).1
  obtain ⟨hlead, hticket, hmap⟩ :=
    first_rebuild .standard (some ([] : List LogEntry)) (id : String → String) "1+2" layout
  have ht : t.isInstrumented = true := by decide +kernel
  obtain ⟨e, he, hsound, hshown⟩ := active_map_sound hlead hticket hmap ht
  have hleaves : m.root.leaves.map (fun n => (n.path, n.value)) =
        [(some "term[0]", some "1"), (some "root", none), (some "term[1]", some "2")] ∧
      ∀ n ∈ m.root.leaves, n.kind.isOperator = true →
        n.path = some "root" ∧ normalizeOperator n.text ≠ Join.signBucket := by
    decide +kernel
  refine ⟨hlead, t, m, e, hticket, hmap, ht, he, hsound, hleaves.1, ?_⟩
  intro n hn hkind
  obtain ⟨hp, htext⟩ := hleaves.2 n hn hkind
  obtain ⟨x, hx, hiff⟩ := hshown n hn hkind _ hp
  exact ⟨x, hx, hiff.2 htext⟩

/-- An operator that is no sign can be taken for one, by its text. -/
theorem not_forall_shownBy :
    ¬ ∀ (settings : Tolerances Rat) (sink : Option (List LogEntry))
      (ops : List (Operation Rat String)) (r : Run Rat (List LogEntry)),
      Leads id (start settings sink) ops r →
      ∀ (t : Ticket) (m : SurfaceMap Rat) (e : Expr), r.session.activeTicket = some t →
        r.session.activeMap = some m → t.isInstrumented = true → t.expr = some e →
        ∀ n ∈ m.root.leaves, n.kind.isOperator = true → ∀ p, n.path = some p →
          ∃ x, e.nodeAt? p = some x ∧ x.ShownBy n := by
  intro hall
  let layout : Layout Rat :=
    .node ⟨["katex-html"], "", ⟨0, 0, 30, 10⟩, []⟩
      [.node ⟨["base"], "", ⟨0, 0, 30, 10⟩, []⟩ [.node ⟨["mbin"], "-u", ⟨0, 0, 10, 10⟩, []⟩ []]]
  let t := (issue 1 "-(1+2)").1
  let m := (joinTicket .standard t layout).1
  obtain ⟨hlead, hticket, hmap⟩ :=
    first_rebuild .standard (some ([] : List LogEntry)) (id : String → String) "-(1+2)" layout
  have ht : t.isInstrumented = true := by decide +kernel
  obtain ⟨-, -, e, he, -⟩ := issue_instrumented ht
  obtain ⟨n, hn, hkind, hp, htext⟩ : ∃ n ∈ m.root.leaves, n.kind.isOperator = true ∧
      n.path = some "root" ∧ normalizeOperator n.text = "-u" := by
    decide +kernel
  obtain ⟨x, hx, arity, hshown, -⟩ := hall _ _ _ _ hlead t m e hticket hmap ht he n hn hkind _ hp
  rw [htext] at hshown
  -- no operator of an expression has that symbol
  cases x with
  | binary o l r p =>
    rw [Expr.operator?, Option.some.injEq, Prod.mk.injEq] at hshown
    exact Join.symbol_ne_signBucket o hshown.1
  | negation a p => exact absurd hshown (by simp [Expr.operator?])
  | numeral v p => cases hshown
  | fraction a b p => cases hshown
  | mixed w a b p => cases hshown

end Run
end Session
end FormulaMap

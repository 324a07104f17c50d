/-
What is said of a formula has no line feed.

The remarks of the reader quote numbers and brackets only, and the messages of the evaluation
quote numerals with their line feeds escaped.  The annotated source of a formula is made of
its numerals, its paths and fixed pieces, so it is one line too (`oneLine_assignPaths`).  The
numerals of a formula have no solidus, and so its expression evaluates without a break
(`exists_outcome_of_spelled`).
-/
import FormulaMap.Proofs.Formula.Evaluation
import FormulaMap.Proofs.Formula.PathLanguage
import FormulaMap.Proofs.Formula.Totality
import FormulaMap.Proofs.Json.Characters
import FormulaMap.Proofs.Text.Feeds

namespace FormulaMap

open Text (OneLine)
open Token (isRun isSignedRun Spelt)

/-! ## Texts without a line feed -/

theorem oneLine_repr (n : Nat) : OneLine (Nat.repr n) :=
  fun h => absurd (Json.isDigit_of_mem_repr h) (by decide)

theorem oneLine_of_isSignedRun {t : String} (h : isSignedRun t.toList = true) : OneLine t := by
  intro hmem
  rcases Expr.mem_isSignedRun h _ hmem with hfeed | hfeed
  · exact absurd hfeed (by decide)
  · exact absurd hfeed (by decide)

namespace Text

theorem feed_not_mem_quotedChar {d : Char} (hd : d ≠ '\n') (c : Char) :
    '\n' ∉ quotedChar d c := by
  have hmark : ∀ b : Char, b ≠ '\n' → '\n' ∉ ['\\', b] := by simp [eq_comm]
  have hhex : ∀ width n, '\n' ∉ hex width n := fun width n hmem =>
    absurd (List.all_eq_true.1 (Json.all_hex width n) _ hmem) (by decide)
  unfold quotedChar
  split
  · next hc =>
    refine hmark c ?_
    rcases hc with rfl | rfl
    · exact hd
    · decide
  split
  · decide
  split
  · decide
  · next hfeed =>
    have hself : '\n' ∉ [c] := fun hmem => hfeed (List.mem_singleton.1 hmem).symm
    split
    · decide
    split
    · exact hself
    split
    · exact List.not_mem_cons_of_ne_of_not_mem (by decide)
        (List.not_mem_cons_of_ne_of_not_mem (by decide) (hhex _ _))
    split
    · exact List.not_mem_cons_of_ne_of_not_mem (by decide)
        (List.not_mem_cons_of_ne_of_not_mem (by decide) (hhex _ _))
    · exact List.not_mem_cons_of_ne_of_not_mem (by decide)
        (List.not_mem_cons_of_ne_of_not_mem (by decide) (hhex _ _))

/-- A line feed is quoted by a letter. -/
theorem oneLine_quoted (s : String) : OneLine (quoted s) := by
  have hdelimiter : delimiter s.toList ≠ '\n' := by
    unfold delimiter
    split <;> decide
  rw [OneLine, quoted, String.toList_ofList, List.cons_append, List.mem_cons, List.mem_append,
    List.mem_singleton, List.mem_flatMap]
  rintro (heq | ⟨c, -, hc⟩ | heq)
  · exact hdelimiter heq.symm
  · exact feed_not_mem_quotedChar hdelimiter c hc
  · exact hdelimiter heq.symm

end Text

/-! ## Messages -/

theorem ParseWarning.oneLine_message {w : ParseWarning} (h : Parser.Remark Spelt w) :
    OneLine w.message := by
  have hexpected : OneLine "expected '" := by decide
  have hnear : OneLine "' near token index " := by decide
  have hbefore : OneLine "fraction after " := by decide
  have hafter : OneLine " is not a mixed number and was left unparsed" := by decide
  cases h with
  | missingParen i =>
    exact ((hexpected.append (by decide)).append hnear).append (oneLine_repr i)
  | missingBrace i =>
    exact ((hexpected.append (by decide)).append hnear).append (oneLine_repr i)
  | notMixed ht hk =>
    have hrun := oneLine_of_isSignedRun (Expr.isSignedRun_of_isRun (ht.number hk))
    exact (hbefore.append hrun).append hafter

theorem ValueIssue.oneLine_message (i : ValueIssue) : OneLine i.message := by
  cases i with
  | unsupportedNumeral t =>
    have hhead : OneLine "unsupported numeral " := by decide
    exact hhead.append (Text.oneLine_quoted t)
  | unsupportedMixed => decide
  | divisionByZero => decide
  | noExpression => decide
  | unreadableFormula => decide

theorem Parsed.oneLine_of_mem_warnings {s : String} {w : ParseWarning}
    (h : w ∈ (ofString s).warnings) : OneLine w.message := by
  have husable : ∀ t ∈ Token.lex s.toList, Parser.Usable t := usable_of_mem_lex
  obtain ⟨step, heq, hreads⟩ := exists_ofStep husable
  have hstep : ∀ w ∈ step.warnings, OneLine w.message := fun w hw =>
    ParseWarning.oneLine_message (hreads.remark_of_mem Token.spelt_of_mem_lex w hw)
  have htrailing : ∀ i, OneLine (ParseWarning.trailing i).message := fun i =>
    (by decide : OneLine "unparsed trailing tokens from index ").append (oneLine_repr i)
  have hof : ofString s = ofStep _ step := heq
  rw [hof, ofStep] at h
  split at h
  · rcases List.mem_append.1 h with h | h
    · exact hstep w h
    · split at h
      · exact absurd h List.not_mem_nil
      · rw [List.mem_singleton.1 h]
        exact htrailing _
  · dsimp only at h
    split at h
    · rw [List.mem_singleton.1 h]
      decide
    · exact hstep w h

/-! ## Source -/

namespace Expr

open Annotations

variable {e : Expr}

theorem isSignedRun_of_mem_literals (h : e.spelled = true) :
    ∀ t ∈ e.literals, isSignedRun t.toList = true := by
  induction e with
  | numeral t p => exact fun _ ht => List.mem_singleton.1 ht ▸ h
  | binary o l r p ihl ihr =>
    rw [spelled, Bool.and_eq_true] at h
    exact List.forall_mem_append.2 ⟨ihl h.1, ihr h.2⟩
  | negation a p ih => exact ih h
  | fraction n d p ihn ihd =>
    rw [spelled, Bool.and_eq_true] at h
    exact List.forall_mem_append.2 ⟨ihn h.1, ihd h.2⟩
  | mixed w n d p =>
    rw [spelled, Bool.and_eq_true, Bool.and_eq_true] at h
    simpa [literals] using ⟨isSignedRun_of_isRun h.1.1, isSignedRun_of_isRun h.1.2,
      isSignedRun_of_isRun h.2⟩

theorem literals_bare (e : Expr) : e.bare.literals = e.literals := by
  induction e with
  | numeral t p => rfl
  | binary o l r p ihl ihr => rw [bare, literals, literals, ihl, ihr]
  | negation a p ih => exact ih
  | fraction n d p ihn ihd => rw [bare, literals, literals, ihn, ihd]
  | mixed w n d p => rfl

theorem value_assignFrom (e : Expr) (p : String) : (e.assignFrom p).value = e.value := by
  induction e generalizing p with
  | numeral t q => rfl
  | binary o l r q ihl ihr => rw [assignFrom, value, value, ihl, ihr]
  | negation a q ih => rw [assignFrom, value, value, ih]
  | fraction n d q ihn ihd => rw [assignFrom, value, value, ihn, ihd]
  | mixed w n d q => rfl

theorem feed_not_mem_note {p : Option String} (h : ∀ q, p = some q → OneLine q) (r : Role)
    (o : Option BinaryOperation) : '\n' ∉ note p r (o.map BinaryOperation.symbol) := by
  have hpath : '\n' ∉ escapePath p := by
    intro hmem
    cases p with
    | none => exact absurd hmem List.not_mem_nil
    | some q => exact h q rfl (List.mem_filter.1 hmem).1
  have hhead : '\n' ∉ "ast-id=".toList := by decide
  have hmiddle : '\n' ∉ ", role=".toList := by decide
  have hrole : '\n' ∉ r.name.toList := by cases r <;> decide
  refine List.not_mem_append (List.not_mem_append (List.not_mem_append
    (List.not_mem_append hhead hpath) hmiddle) hrole) ?_
  cases o with
  | none => exact List.not_mem_nil
  | some o => cases o <;> decide

theorem feed_not_mem_annotated {cs : List Char} {m : Markup} (hnote : '\n' ∉ cs)
    (hbody : '\n' ∉ m.render) : '\n' ∉ (Markup.annotated cs m).render := by
  have hcommand : '\n' ∉ Markup.command := by decide
  simp [Markup.render, Markup.braced, hcommand, hnote, hbody]

theorem feed_not_mem_wrapIf {m : Markup} (b : Bool) (h : '\n' ∉ m.render) :
    '\n' ∉ (wrapIf b m).render := by
  cases b with
  | false => exact h
  | true => simpa [wrapIf, parenthesized, Markup.render] using h

theorem feed_not_mem_render (hliterals : ∀ t ∈ e.literals, OneLine t)
    (hpaths : ∀ n ∈ e.nodes, ∀ p, n.path = some p → OneLine p) : '\n' ∉ e.markup.render := by
  induction e with
  | numeral t p =>
    have hself := hpaths _ List.mem_cons_self
    exact feed_not_mem_annotated (feed_not_mem_note hself .number none)
      (hliterals t List.mem_cons_self)
  | binary o l r p ihl ihr =>
    rw [literals, List.forall_mem_append] at hliterals
    rw [nodes, List.forall_mem_append, List.forall_mem_cons] at hpaths
    have hl := feed_not_mem_wrapIf (leftNeedsParens o l) (ihl hliterals.1 hpaths.1)
    have hr := feed_not_mem_wrapIf (rightNeedsParens o r) (ihr hliterals.2 hpaths.2.2)
    have hsign : '\n' ∉ (Markup.ofString o.display).render := by cases o <;> decide
    have hself := feed_not_mem_annotated (feed_not_mem_note hpaths.2.1 .operator (some o)) hsign
    simp only [markup, Markup.render, List.mem_append, List.mem_singleton, not_or] at hself ⊢
    exact ⟨hl, by decide, hself, by decide, hr⟩
  | negation a p ih =>
    rw [nodes, List.forall_mem_cons] at hpaths
    have ha := feed_not_mem_wrapIf (signNeedsParens a) (ih hliterals hpaths.2)
    simp only [markup, Markup.render, List.mem_append, List.mem_singleton, not_or]
    exact ⟨by decide, ha⟩
  | fraction n d p ihn ihd =>
    rw [literals, List.forall_mem_append] at hliterals
    rw [nodes, List.forall_mem_cons, List.forall_mem_append] at hpaths
    have hn := ihn hliterals.1 hpaths.2.1
    have hd := ihd hliterals.2 hpaths.2.2
    have hcommand : '\n' ∉ "\\frac".toList := by decide
    refine feed_not_mem_annotated (feed_not_mem_note hpaths.1 .fraction none) ?_
    simp [Markup.render, Markup.ofString, Markup.braced, hn, hd]
  | mixed w n d p =>
    have hself := hpaths _ List.mem_cons_self
    simp only [literals, List.forall_mem_cons] at hliterals
    obtain ⟨hw, hn, hd, -⟩ := hliterals
    refine feed_not_mem_annotated (feed_not_mem_note hself .mixed none) ?_
    simp only [OneLine] at hw hn hd
    simp [Markup.render, Markup.ofString, Markup.braced, hw, hn, hd]

/-- The annotated source of an expression that is spelled as formulas are is one line. -/
theorem oneLine_assignPaths (h : e.spelled = true) : OneLine e.assignPaths.annotated := by
  rw [OneLine, annotated, String.toList_ofList]
  refine feed_not_mem_render (fun t ht => ?_) fun n hn p hp => ?_
  · rw [← literals_bare, assignPaths, bare_assignFrom, literals_bare] at ht
    exact oneLine_of_isSignedRun (isSignedRun_of_mem_literals h t ht)
  · obtain ⟨steps, hsteps⟩ := path_of_mem_nodes_assignPaths hn
    rw [hsteps, Option.some.injEq] at hp
    rw [← hp]
    exact Path.feed_not_mem_ofSteps steps

/-! ## Values -/

theorem made_of_ofString {s : String} (h : (Parsed.ofString s).expr = some e) : Made False e :=
  made_of_ofTokens (fun t ht => ⟨Token.spelt_of_mem_lex t ht, False.elim⟩) h

theorem exists_outcome_of_spelled (h : e.spelled = true) :
    ∃ v, e.value = .ok v ∧ Outcome e v := by
  refine exists_outcome fun t ht hmem => ?_
  rcases mem_isSignedRun (isSignedRun_of_mem_literals h t ht) _ hmem with hslash | hslash
  · exact absurd hslash (by decide)
  · exact absurd hslash (by decide)

theorem Outcome.value_eq_some_iff {v : Valuation} (h : Outcome e v) (hv : e.value = .ok v)
    (x : Rat) : v.value = some x ↔ e.Denotes x := by
  constructor
  · intro hx
    cases h with
    | value hy hv =>
      rw [hv, Valuation.of, Option.some.injEq] at hx
      exact hx ▸ hy
    | issues hnone _ _ => exact absurd (hnone.symm.trans hx) (Option.some_ne_none x).symm
  · intro hx
    rw [hx.value_eq, Except.ok.injEq] at hv
    rw [← hv]
    rfl

end Expr
end FormulaMap

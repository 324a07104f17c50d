/-
When evaluating comes to a valuation.

Every failure of a node is reported, and what has no value has an issue.  A literal that is a
quotient by zero is the exception: it stops the evaluation, wherever it stands, and of several
the first in reading order does (`value_reports_iff`).
-/
import FormulaMap.Formula.Data
import FormulaMap.Proofs.Formula.Evaluation
import FormulaMap.Proofs.Number.Quotients

namespace FormulaMap
namespace Expr

/-- What stops the reading of a literal. -/
def fault? (t : String) : Option ZeroDivisor :=
  match Numeral.rational? t with
  | .ok _ => none
  | .error z => some z

variable {e : Expr} {t : String} {ts : List String} {z : ZeroDivisor}

theorem fault?_eq_some_iff : fault? t = some z ↔ Numeral.rational? t = .error z := by
  rw [fault?]
  cases Numeral.rational? t <;> simp

theorem fault?_eq_none_iff : fault? t = none ↔ ∀ x, ¬Numeral.QuotientByZero t x := by
  rw [Option.eq_none_iff_forall_ne_some]
  constructor
  · intro h x hx
    exact h _ (fault?_eq_some_iff.2 (Numeral.rational?_eq_error_iff.2 ⟨x, hx, rfl⟩))
  · intro h z hz
    obtain ⟨x, hx, -⟩ := Numeral.rational?_eq_error_iff.1 (fault?_eq_some_iff.1 hz)
    exact h x hx

/-- Literals without a fault are read or not. -/
theorem exists_rational? (h : ts.findSome? fault? = none) :
    ∀ t ∈ ts, ∃ x, Numeral.rational? t = .ok x := by
  intro t ht
  have hnone := List.findSome?_eq_none_iff.1 h t ht
  rw [fault?] at hnone
  split at hnone
  · next x hx => exact ⟨x, hx⟩
  · cases hnone

theorem exists_outcome_of_faultless (h : e.literals.findSome? fault? = none) :
    ∃ v, e.value = .ok v ∧ Outcome e v :=
  exists_outcome_of_answers (exists_rational? h)

/-- The first fault stops the evaluation; what comes before it has a valuation. -/
theorem value_of_fault (h : e.literals.findSome? fault? = some z) : e.value = .error z := by
  induction e with
  | numeral t p =>
    rw [literals, List.findSome?_singleton] at h
    rw [value, fault?_eq_some_iff.1 h]
    rfl
  | mixed w n d p =>
    rw [value]
    cases hw : Numeral.rational? w with
    | error y =>
      obtain rfl : y = z := by simpa [literals, fault?, hw] using h
      rfl
    | ok _ =>
      cases hn : Numeral.rational? n with
      | error y =>
        obtain rfl : y = z := by simpa [literals, fault?, hw, hn] using h
        rfl
      | ok _ =>
        cases hd : Numeral.rational? d with
        | error y =>
          obtain rfl : y = z := by simpa [literals, fault?, hw, hn, hd] using h
          rfl
        | ok _ => simp [literals, fault?, hw, hn, hd] at h
  | negation a p ih =>
    rw [value, ih h]
    rfl
  | fraction n d p ihn ihd =>
    rw [literals, List.findSome?_append, Option.or_eq_some_iff] at h
    rcases h with hn | ⟨hn, hd⟩
    · rw [value, ihn hn]
      rfl
    · obtain ⟨v, hv, -⟩ := exists_outcome_of_faultless hn
      rw [value, hv, ihd hd]
      rfl
  | binary o l r p ihl ihr =>
    rw [literals, List.findSome?_append, Option.or_eq_some_iff] at h
    rcases h with hl | ⟨hl, hr⟩
    · rw [value, ihl hl]
      rfl
    · obtain ⟨v, hv, -⟩ := exists_outcome_of_faultless hl
      rw [value, hv, ihr hr]
      rfl

theorem value_eq_error_iff : e.value = .error z ↔ e.literals.findSome? fault? = some z := by
  refine ⟨fun h => ?_, value_of_fault⟩
  cases hfault : e.literals.findSome? fault? with
  | none =>
    obtain ⟨v, hv, -⟩ := exists_outcome_of_faultless hfault
    rw [hv] at h
    cases h
  | some y =>
    rw [value_of_fault hfault, Except.error.injEq] at h
    rw [h]

/-- There is a value exactly when there is nothing to report. -/
theorem Outcome.value_eq_none_iff {v : Valuation} (h : Outcome e v) :
    v.value = none ↔ v.messages ≠ [] := by
  rw [Valuation.messages, ne_eq, List.map_eq_nil_iff]
  cases h with
  | value hx hv => simp [hv, Valuation.of]
  | issues hnone hissues _ => simp [hnone, hissues]

/-- Evaluating gives either a value or messages exactly when no literal is a quotient by zero.
Otherwise it ends with the first such literal in reading order, and tells the sign of its
dividend. -/
theorem value_reports_iff (e : Expr) :
    ((∃ v, e.value = .ok v ∧ (v.value = none ↔ v.messages ≠ [])) ↔
      ∀ t ∈ e.literals, ∀ x, ¬Numeral.QuotientByZero t x) ∧
    ∀ z, e.value = .error z ↔ ∃ before t after x, e.literals = before ++ t :: after ∧
      (∀ s ∈ before, ∀ y, ¬Numeral.QuotientByZero s y) ∧ Numeral.QuotientByZero t x ∧
        z = ⟨Numeral.signOf x⟩ := by
  constructor
  · have hnone : e.literals.findSome? fault? = none ↔
        ∀ t ∈ e.literals, ∀ x, ¬Numeral.QuotientByZero t x := by
      rw [List.findSome?_eq_none_iff]
      exact forall₂_congr fun t _ => fault?_eq_none_iff
    rw [← hnone]
    constructor
    · rintro ⟨v, hv, -⟩
      rw [Option.eq_none_iff_forall_ne_some]
      intro z hz
      rw [value_of_fault hz] at hv
      cases hv
    · intro h
      obtain ⟨v, hv, houtcome⟩ := exists_outcome_of_faultless h
      exact ⟨v, hv, houtcome.value_eq_none_iff⟩
  · intro z
    rw [value_eq_error_iff, List.findSome?_eq_some_iff]
    constructor
    · rintro ⟨before, t, after, heq, ht, hbefore⟩
      obtain ⟨x, hx, hz⟩ := Numeral.rational?_eq_error_iff.1 (fault?_eq_some_iff.1 ht)
      exact ⟨before, t, after, x, heq, fun s hs => fault?_eq_none_iff.1 (hbefore s hs), hx, hz⟩
    · rintro ⟨before, t, after, x, heq, hbefore, hx, hz⟩
      have ht := fault?_eq_some_iff.2 (Numeral.rational?_eq_error_iff.2 ⟨x, hx, hz⟩)
      exact ⟨before, t, after, heq, ht, fun s hs => fault?_eq_none_iff.2 (hbefore s hs)⟩

/-- A numeral may be given as one over zero, and then nothing is reported. -/
theorem not_forall_value_reports : ¬ ∀ (j : Json) (e : Expr), ofJson j = .ok e →
    ∃ v, e.value = .ok v ∧ (v.value = none ↔ v.messages ≠ []) := by
  intro h
  have hread : ofJson (.obj [("node", .str "integer"), ("value", .str "1/0")]) =
      .ok (.numeral "1/0" none) := rfl
  have hvalue : (Expr.numeral "1/0" none).value = .error ⟨1⟩ := by decide +kernel
  obtain ⟨v, hv, -⟩ := h _ _ hread
  rw [hvalue] at hv
  cases hv

end Expr
end FormulaMap

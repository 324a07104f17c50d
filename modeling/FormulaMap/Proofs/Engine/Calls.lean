/-
Every call of the client is answered.

A call ends in one of three ways (`runStep_cases`): nothing is delivered, what is delivered is
not of the expected shape, or it is and the result is what it says.  In each of them the client
remembers the request of this call, and what was delivered for it or nothing.  What it
remembered before has no part in this, so one call is enough for any number of them.
-/
import FormulaMap.Engine.Client
import FormulaMap.Proofs.Engine.Answers

namespace FormulaMap

/-- The text of an error begins with a word. -/
theorem EngineError.text_ne_empty (e : EngineError) : e.text ≠ "" := by
  intro h
  unfold EngineError.text at h
  have hretryable := (String.append_eq_empty_iff.1 (String.append_eq_empty_iff.1 h).1).1
  have hkind := (String.append_eq_empty_iff.1 (String.append_eq_empty_iff.1 hretryable).1).1
  have hword := (String.append_eq_empty_iff.1 hkind).1
  simp at hword

/-- The request was answered with an object. -/
def Outcome.Delivers (o : Outcome) (body : Fields Json) : Prop :=
  ∃ text, o = .answered ⟨200, text, .ok (.obj body)⟩

theorem Outcome.body?_eq_ok_iff {o : Outcome} {body : Fields Json} :
    o.body? = .ok body ↔ o.Delivers body := by
  constructor
  · intro h
    cases o with
    | raised e => cases h
    | refused e => cases h
    | answered r =>
      obtain ⟨status, text, decoded⟩ := r
      rw [body?] at h
      dsimp only at h
      split at h
      · cases h
      · next hstatus =>
        rw [not_not] at hstatus
        subst hstatus
        split at h
        · cases h
        · obtain rfl := Except.ok.inj h
          exact ⟨text, rfl⟩
        · cases h
  · rintro ⟨text, rfl⟩
    rfl

namespace Client

open StepResult (Conveys Shaped)

/-- What is remembered of a call. -/
def remember (r : StepRequest) (body : Option (Fields Json)) (c : Client) : Client :=
  { c with lastRequest := some r.payload, lastResponse := body }

/-- How a call ends. -/
theorem runStep_cases (r : StepRequest) (o : Outcome) (c : Client) :
    (∃ e : EngineError, (∀ body, ¬o.Delivers body) ∧
      c.runStep r o = (.failed e.text none, c.remember r none)) ∨
    (∃ (body : Fields Json) (e : EngineError), o.Delivers body ∧ ¬Shaped body ∧
      c.runStep r o = (.failed e.text (some body), c.remember r (some body))) ∨
    ∃ (body : Fields Json) (result : StepResult), o.Delivers body ∧ Conveys body result ∧
      c.runStep r o = (result, c.remember r (some body)) := by
  rw [runStep, attempt]
  cases hbody : o.body? with
  | error e =>
    refine Or.inl ⟨e, fun body hdelivers => ?_, rfl⟩
    rw [Outcome.body?_eq_ok_iff.2 hdelivers] at hbody
    cases hbody
  | ok body =>
    have hdelivers := Outcome.body?_eq_ok_iff.1 hbody
    cases hresult : StepResult.ofBody body with
    | error f =>
      refine Or.inr (Or.inl ⟨body, .badResponse f.message, hdelivers, ?_, by simp only [hresult]; rfl⟩)
      rintro ⟨result, hconveys⟩
      rw [StepResult.ofBody_eq_ok_iff.2 hconveys] at hresult
      cases hresult
    | ok result =>
      exact Or.inr (Or.inr ⟨body, result, hdelivers, StepResult.ofBody_eq_ok_iff.1 hresult,
        by simp only [hresult]; rfl⟩)

/-- The result of a call with the client after it, for what became of the request. -/
structure Answered (r : StepRequest) (o : Outcome) (result : StepResult) (c : Client) : Prop where
  request : c.lastRequest = some r.payload
  response : ∀ body, c.lastResponse = some body ↔ o.Delivers body
  raw : result.raw = c.lastResponse
  status : result.status.name ∈ ["step-applied", "no-candidates", "engine-error", "choice"]
  failure : (∀ body, o.Delivers body → ¬Shaped body) →
    result.status = .engineError ∧ ∃ text, result.error = some text ∧ text ≠ ""
  success : ∀ body, o.Delivers body → Shaped body → Conveys body result

theorem delivers_unique {o : Outcome} {body body' : Fields Json} (h : o.Delivers body)
    (h' : o.Delivers body') : body = body' := by
  obtain ⟨text, rfl⟩ := h
  obtain ⟨text', heq⟩ := h'
  cases heq
  rfl

theorem name_mem (t : StepStatus) :
    t.name ∈ ["step-applied", "no-candidates", "engine-error", "choice"] := by
  cases t <;> decide

/-- One call is answered, whatever the client remembers. -/
theorem runStep_answered (r : StepRequest) (o : Outcome) (c : Client) :
    Answered r o (c.runStep r o).1 (c.runStep r o).2 := by
  have hremembered : ∀ body, o.Delivers body →
      ∀ body', (c.remember r (some body)).lastResponse = some body' ↔ o.Delivers body' := by
    intro body hbody body'
    refine ⟨fun h => Option.some.inj h ▸ hbody, fun h => congrArg some (delivers_unique hbody h)⟩
  rcases runStep_cases r o c with ⟨e, hnone, h⟩ | ⟨body, e, hbody, hshape, h⟩ |
      ⟨body, result, hbody, hconveys, h⟩ <;> rw [h]
  · exact ⟨rfl, fun body => ⟨nofun, fun hbody => absurd hbody (hnone body)⟩, rfl, name_mem _,
      fun _ => ⟨rfl, e.text, rfl, e.text_ne_empty⟩, fun body hbody => absurd hbody (hnone body)⟩
  · exact ⟨rfl, hremembered body hbody, rfl, name_mem _,
      fun _ => ⟨rfl, e.text, rfl, e.text_ne_empty⟩,
      fun body' hbody' hshaped => absurd (delivers_unique hbody hbody' ▸ hshaped) hshape⟩
  · exact ⟨rfl, hremembered body hbody, hconveys.raw, name_mem _,
      fun hnot => absurd ⟨result, hconveys⟩ (hnot body hbody),
      fun body' hbody' _ => delivers_unique hbody hbody' ▸ hconveys⟩

/-- The results of calls that are made one after another, each with the client after it. -/
def answers : List (StepRequest × Outcome) → Client → List (StepResult × Client)
  | [], _ => []
  | (r, o) :: calls, c => c.runStep r o :: answers calls (c.runStep r o).2

/-- Every call of a client has its result, which is about this call alone. -/
theorem calls_answered (calls : List (StepRequest × Outcome)) (c : Client) :
    List.Forall₂ (fun call answer => Answered call.1 call.2 answer.1 answer.2) calls
      (c.answers calls) := by
  induction calls generalizing c with
  | nil => exact .nil
  | cons call calls ih =>
    obtain ⟨r, o⟩ := call
    rw [answers]
    exact .cons (runStep_answered r o c) (ih _)

end Client
end FormulaMap

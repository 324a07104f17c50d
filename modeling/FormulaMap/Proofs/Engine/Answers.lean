/-
What an answer of the engine says.

`Conveys body r` is the expected shape of an answer together with what is read from it: which
parts may be absent, what the others are, and where each field of the result comes from.  An
answer is read exactly when it has this shape (`ofBody_eq_ok_iff`), and it says one thing.
-/
import FormulaMap.Engine.Result
import FormulaMap.Proofs.Record.Checking
import Mathlib.Data.List.Forall2

namespace FormulaMap

/-- A field with two names is looked up under its outer one first. -/
theorem StepRequest.get?_given (fs : Fields Json) (n : StepRequest.FieldName) :
    Fields.get? (given fs n) fs = (Fields.get? n.outer fs).or (Fields.get? n.inner fs) := by
  rw [given, Field.givenName]
  cases houter : Fields.get? n.outer fs with
  | some v => exact houter
  | none =>
    cases hinner : Fields.get? n.inner fs with
    | some v => exact hinner
    | none => exact houter

/-! ## Steps on offer -/

namespace StepChoice

/-- The value describes the step. -/
def Describes (v : Json) (c : StepChoice) : Prop :=
  ∃ fs, v = .obj fs ∧ Fields.get? "id" fs = some (.str c.id) ∧
    Fields.get? "label" fs = some (.str c.label) ∧
    (Fields.get? primitiveName.outer fs).or (Fields.get? primitiveName.inner fs) =
      some (.str c.primitiveId) ∧
    ((Fields.get? targetName.outer fs).or (Fields.get? targetName.inner fs)).getD .null =
      .ofString? c.targetNodeId

theorem ofJson_eq_ok_iff {v : Json} {c : StepChoice} : ofJson v = .ok c ↔ Describes v c := by
  rw [ofJson.eq_def, Describes]
  cases v with
  | obj fs =>
    simp only [Field.record, Checked.map2_eq_ok_iff, Checked.both_eq_ok_iff,
      Field.required_string_eq_ok_iff, Field.optionalText_eq_ok_iff, StepRequest.get?_given,
      Prod.exists, Json.obj.injEq, exists_eq_left']
    constructor
    · rintro ⟨_, _, _, _, ⟨hid, hlabel⟩, ⟨hprimitive, htarget⟩, rfl⟩
      exact ⟨hid, hlabel, hprimitive, htarget⟩
    · rintro ⟨hid, hlabel, hprimitive, htarget⟩
      exact ⟨_, _, _, _, ⟨hid, hlabel⟩, ⟨hprimitive, htarget⟩, rfl⟩
  | _ => simp [Field.record, Checked.fail]

end StepChoice

/-! ## The status -/

namespace StepStatus

theorem ofName?_eq_some_iff {s : String} {t : StepStatus} : ofName? s = some t ↔ s = t.name := by
  constructor
  · intro h
    have hname := List.find?_some (p := fun t : StepStatus => t.name == s) h
    exact (beq_iff_eq.1 hname).symm
  · rintro rfl
    cases t <;> rfl

theorem ofJson_eq_ok_iff {v : Json} {t : StepStatus} : ofJson v = .ok t ↔ v = .str t.name := by
  cases v with
  | str s =>
    rw [ofJson, Json.str.injEq, ← ofName?_eq_some_iff]
    cases ofName? s <;> simp
  | _ => simp [ofJson]

end StepStatus

/-! ## The whole answer -/

namespace StepResult

/-- A part of the answer, which has no fields when it is absent. -/
def HasPart (key : String) (body fs : Fields Json) : Prop :=
  (present? key body).getD (.obj []) = .obj fs

/-- The primitive's name: the answer's own, or that of its notes. -/
inductive NamesPrimitive (body : Fields Json) : Json → Prop
  | own {v : Json} : valueAt "primitiveId" body = v → v ≠ .null → NamesPrimitive body v
  | noted {notes : Fields Json} : valueAt "primitiveId" body = .null →
      HasPart "primitiveDebug" body notes → NamesPrimitive body (valueAt "primitiveId" notes)

/-- The engine says that the step is not fine. -/
def Rejects (engine : Fields Json) : Prop :=
  ∃ ok, Fields.get? "ok" engine = some ok ∧ ok.isTruthy = false

/-- The answer has the expected shape, and the result is what it says. -/
structure Conveys (body : Fields Json) (r : StepResult) : Prop where
  status : (present? "status" body).getD (.str "engine-error") = .str r.status.name
  primitive : NamesPrimitive body (.ofString? r.primitiveId)
  engine : ∃ engine, HasPart "engineResult" body engine ∧
    valueAt "newExpressionLatex" engine = .ofString? r.newExpression ∧
      (Rejects engine → valueAt "errorCode" engine = .ofString? r.error) ∧
        (¬Rejects engine → r.error = none)
  choices : ∃ items, (present? "choices" body).getD (.arr []) = .arr items ∧
    List.Forall₂ StepChoice.Describes items r.choices
  raw : r.raw = some body

/-- The answer is of the expected shape: it says something. -/
def Shaped (body : Fields Json) : Prop := ∃ r, Conveys body r

variable {body fs : Fields Json} {key : String} {v : Json} {r : StepResult}

theorem part_eq_ok_iff : part key body = .ok fs ↔ HasPart key body fs := by
  rw [part, HasPart]
  cases hpresent : present? key body with
  | none => simp [eq_comm]
  | some v => cases v <;> simp

theorem primitiveOf_eq_ok_iff : primitiveOf body = .ok v ↔ NamesPrimitive body v := by
  rw [primitiveOf.eq_def]
  split
  · next hnull =>
    constructor
    · intro h
      cases hpart : part "primitiveDebug" body with
      | error f => simp [hpart, Except.map] at h
      | ok notes =>
        rw [hpart] at h
        obtain rfl := Except.ok.inj h
        exact .noted hnull (part_eq_ok_iff.1 hpart)
    · intro h
      cases h with
      | own hv hne => exact absurd (hv.symm.trans hnull) hne
      | noted _ hpart =>
        rw [part_eq_ok_iff.2 hpart]
        rfl
  · next hnonnull =>
    constructor
    · intro h
      obtain rfl := Except.ok.inj h
      exact .own rfl hnonnull
    · intro h
      cases h with
      | own hv _ => rw [hv]
      | noted hnull _ => exact absurd hnull hnonnull

theorem errorCode_eq_iff {engine : Fields Json} {o : Option String} :
    errorCode engine = .ofString? o ↔
      (Rejects engine → valueAt "errorCode" engine = .ofString? o) ∧ (¬Rejects engine → o = none) := by
  have hnull : Json.null = .ofString? o ↔ o = none := by
    cases o <;> simp [Json.ofString?, Json.ofOption]
  by_cases h : Rejects engine
  · obtain ⟨ok, hok, hfalse⟩ := h
    have hempty : engine.isEmpty = false := by
      cases engine with
      | nil => cases hok
      | cons _ _ => rfl
    rw [errorCode, hempty, hok, Option.getD_some, hfalse, Bool.or_false, if_neg Bool.false_ne_true]
    simp [show Rejects engine from ⟨ok, hok, hfalse⟩]
  · have hok : ((Fields.get? "ok" engine).getD (.bool true)).isTruthy = true := by
      cases hok : Fields.get? "ok" engine with
      | none => rfl
      | some ok =>
        by_contra hfalse
        exact h ⟨ok, hok, Bool.eq_false_iff.2 hfalse⟩
    rw [errorCode, hok, Bool.or_true, if_pos rfl, hnull]
    simp [h]

theorem choices_eq_ok_iff {cs : List StepChoice} : Field.list StepChoice.ofJson v = .ok cs ↔
    ∃ items, v = .arr items ∧ List.Forall₂ StepChoice.Describes items cs := by
  rw [Field.list_eq_ok_iff]
  refine exists_congr fun items => and_congr_right fun _ => ?_
  rw [← List.forall₂_eq_eq_eq, List.forall₂_map_left_iff, List.forall₂_map_right_iff]
  simp only [StepChoice.ofJson_eq_ok_iff]

/-- The fields that are checked together, when both parts are there. -/
theorem ofBody_eq {engine : Fields Json} {primitive : Json}
    (hengine : part "engineResult" body = .ok engine) (hprimitive : primitiveOf body = .ok primitive) :
    ofBody body = .ok r ↔
      (present? "status" body).getD (.str "engine-error") = .str r.status.name ∧
      primitive = .ofString? r.primitiveId ∧
      valueAt "newExpressionLatex" engine = .ofString? r.newExpression ∧
      (∃ items, (present? "choices" body).getD (.arr []) = .arr items ∧
        List.Forall₂ StepChoice.Describes items r.choices) ∧
      errorCode engine = .ofString? r.error ∧ r.raw = some body := by
  have hresult : ∀ x : Checked StepResult,
      x.mapError (fun ps => ShapeFault.invalid ps.length) = .ok r ↔ x = .ok r := by
    intro x
    cases x <;> simp [Except.mapError]
  rw [ofBody, hengine, hprimitive]
  refine (hresult _).trans ?_
  simp only [Checked.map2_eq_ok_iff, Checked.both_eq_ok_iff, StepStatus.ofJson_eq_ok_iff,
    Field.optional_string_eq_ok_iff, choices_eq_ok_iff, Prod.exists]
  obtain ⟨status, primitiveId, expression, choices, error, raw⟩ := r
  simp only [mk.injEq]
  constructor
  · rintro ⟨_, _, _, _, _, ⟨hstatus, hprimitive, hexpression⟩, ⟨hchoices, herror⟩, rfl, rfl, rfl,
      rfl, rfl, rfl⟩
    exact ⟨hstatus, hprimitive, hexpression, hchoices, herror, rfl⟩
  · rintro ⟨hstatus, hprimitive, hexpression, hchoices, herror, rfl⟩
    exact ⟨_, _, _, _, _, ⟨hstatus, hprimitive, hexpression⟩, ⟨hchoices, herror⟩, rfl, rfl, rfl,
      rfl, rfl, rfl⟩

/-- An answer is read exactly when it has the expected shape. -/
theorem ofBody_eq_ok_iff : ofBody body = .ok r ↔ Conveys body r := by
  constructor
  · intro h
    cases hengine : part "engineResult" body with
    | error f =>
      rw [ofBody, hengine] at h
      cases h
    | ok engine =>
      cases hprimitive : primitiveOf body with
      | error f =>
        rw [ofBody, hengine, hprimitive] at h
        cases h
      | ok primitive =>
        obtain ⟨hstatus, rfl, hexpression, hchoices, herror, hraw⟩ := (ofBody_eq hengine hprimitive).1 h
        exact ⟨hstatus, primitiveOf_eq_ok_iff.1 hprimitive,
          ⟨engine, part_eq_ok_iff.1 hengine, hexpression, errorCode_eq_iff.1 herror⟩, hchoices, hraw⟩
  · rintro ⟨hstatus, hprimitive, ⟨engine, hengine, hexpression, herror⟩, hchoices, hraw⟩
    exact (ofBody_eq (part_eq_ok_iff.2 hengine) (primitiveOf_eq_ok_iff.2 hprimitive)).2
      ⟨hstatus, rfl, hexpression, hchoices, errorCode_eq_iff.2 herror, hraw⟩

end StepResult
end FormulaMap

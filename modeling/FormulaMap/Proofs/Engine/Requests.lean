/-
Which requests are accepted, and what is sent for them.

The request for a node is checked in two places: the formula must not be empty, and a
path must be well formed.  A field is sent when it has a value, so the path is sent
for a node that has one, and the operator's number only for a node that has none.

A path that is accepted is the address of a node of some expression, but for line feeds
that may follow its operands (`accepted_paths_are_addresses`).
-/
import FormulaMap.Engine.Request
import FormulaMap.Proofs.Formula.PathLanguage
import FormulaMap.Proofs.Record.Checking

namespace FormulaMap

namespace Fields

variable {β : Type}

theorem has_eq_any (k : String) (fs : Fields β) : has k fs = fs.any fun f => f.1 == k := by
  rw [has, get?, Option.isSome_map]
  exact List.isSome_find?

theorem has_append (k : String) (fs gs : Fields β) : has k (fs ++ gs) = (has k fs || has k gs) := by
  rw [has_eq_any, has_eq_any, has_eq_any, List.any_append]

theorem has_toList {γ : Type} (k k' : String) (f : γ → β) (v : Option γ) :
    has k ((v.map fun c => (k', f c)).toList) = (k' == k && v.isSome) := by
  rw [has_eq_any]
  cases v with
  | none => exact (Bool.and_false _).symm
  | some c =>
    rw [Option.map_some, Option.toList_some, List.any_cons, List.any_nil, Bool.or_false,
      Option.isSome_some, Bool.and_true]

end Fields

namespace StepRequest

variable {α : Type}

def Sends (name : FieldName) (r : StepRequest) : Prop := Fields.has name.outer r.payload = true

/-- A key is there when the field that it names has a value. -/
theorem has_payload (k : String) (r : StepRequest) :
    Fields.has k r.payload =
      ((sessionName.outer == k && r.sessionId.isSome) || expressionName.outer == k ||
        (pathName.outer == k && r.selectionPath.isSome) ||
        (indexName.outer == k && r.operatorIndex.isSome) ||
        (preferredName.outer == k && r.preferredPrimitiveId.isSome) ||
        (kindName.outer == k && r.surfaceNodeKind.isSome) ||
        (courseName.outer == k || roleName.outer == k)) := by
  have hpair : ∀ (a b : String) (v w : Json),
      Fields.has k [(a, v), (b, w)] = (a == k || b == k) := by
    intro a b v w
    rw [Fields.has_eq_any, List.any_cons, List.any_cons, List.any_nil, Bool.or_false]
  have hone : ∀ (a : String) (v : Json), Fields.has k [(a, v)] = (a == k) := by
    intro a v
    rw [Fields.has_eq_any, List.any_cons, List.any_nil, Bool.or_false]
  simp only [payload, optionalText, Fields.has_append, Fields.has_toList, hone, hpair]

theorem sends_path_iff (r : StepRequest) : r.Sends pathName ↔ r.selectionPath.isSome = true := by
  rw [Sends, has_payload]
  simp [sessionName, expressionName, pathName, indexName, preferredName, kindName, courseName,
    roleName]

theorem sends_index_iff (r : StepRequest) : r.Sends indexName ↔ r.operatorIndex.isSome = true := by
  rw [Sends, has_payload]
  simp [sessionName, expressionName, pathName, indexName, preferredName, kindName, courseName,
    roleName]

theorem checkedPath_eq_ok {p : Option String} (h : ∀ q, p = some q → Path.isValid q = true) :
    checkedPath p = .ok p := by
  cases p with
  | none => rfl
  | some q =>
    have hvalid : pathRule q = none := by
      rw [pathRule, if_pos (h q rfl)]
    rw [checkedPath, Checked.ensure, hvalid]
    rfl

theorem ofNode_accepted {formula : String} (hformula : formula.isEmpty = false) {n : Node α}
    (hpath : ∀ p, n.path = some p → Path.isValid p = true) (preferred session : Option String) :
    ∃ r, ofNode formula n preferred session = .ok r ∧ r.selectionPath = n.path ∧
      r.operatorIndex = if n.isJoined then none else n.slot := by
  have hpresent : presentRule formula = none := by
    rw [presentRule, hformula, if_neg Bool.false_ne_true]
  rw [ofNode, checkedPath_eq_ok hpath, Checked.ensure, hpresent]
  exact ⟨_, rfl, rfl, rfl⟩

/-- A well-formed path is not empty, so a node that has one is joined. -/
theorem isJoined_of_path {n : Node α} {p : String} (h : n.path = some p)
    (hp : Path.isValid p = true) : n.isJoined = true := by
  have hne : p.isEmpty = false := by
    rw [Bool.eq_false_iff]
    intro hempty
    rw [String.isEmpty_iff] at hempty
    subst hempty
    exact absurd hp (by decide)
  rw [Node.isJoined, Node.joined?, h, Option.filter_some, hne]
  rfl

/-- What is sent for a node: its path if it has one, and otherwise perhaps a number. -/
theorem ofNode_sends {formula : String} (hformula : formula.isEmpty = false) {n : Node α}
    (hpath : ∀ p, n.path = some p → Path.isValid p = true) (preferred session : Option String) :
    ∃ r, ofNode formula n preferred session = .ok r ∧
      (r.Sends pathName ↔ n.path.isSome = true) ∧ (r.Sends indexName → n.path = none) := by
  obtain ⟨r, hr, hselection, hindex⟩ := ofNode_accepted hformula hpath preferred session
  refine ⟨r, hr, ?_, ?_⟩
  · rw [sends_path_iff, hselection]
  · intro hsends
    rw [sends_index_iff, hindex] at hsends
    cases hp : n.path with
    | none => rfl
    | some p =>
      rw [if_pos (isJoined_of_path hp (hpath p hp))] at hsends
      exact absurd hsends Bool.false_ne_true

/-! ## Paths that are given -/

/-- The request for a formula and a path is made, and keeps the path. -/
def Accepts (formula p : String) : Prop :=
  ∃ r, ofFields [(expressionName.outer, .str formula), (pathName.outer, .str p)] = .ok r ∧
    r.selectionPath = some p

theorem nonEmptyString_str (s : String) :
    Field.nonEmptyString (.str s) = if s = "" then .fail .stringTooShort else .ok s := by
  rw [Field.nonEmptyString, Field.string, Checked.ensure]
  by_cases hs : s = ""
  · rw [hs]
    rfl
  · have hempty : s.isEmpty = false := by
      rw [Bool.eq_false_iff, ne_eq, String.isEmpty_iff]
      exact hs
    rw [if_neg hs, hempty, if_neg Bool.false_ne_true]

theorem readPath_str (p : String) :
    readPath (.str p) = if Path.isValid p then .ok (some p)
      else .fail (.rule ("invalid structural path: " ++ Text.quoted p)) := by
  rw [readPath, Field.optional, Field.string, Checked.ensure, pathRule]
  · cases Path.isValid p <;> rfl
  · exact Json.noConfusion

/-- The other fields have values that hold when they are left out, so the request is made
when these two are fine. -/
theorem ofFields_eq (formula p : String) :
    ofFields [(expressionName.outer, .str formula), (pathName.outer, .str p)] =
      Checked.map2 (fun expression path =>
        ⟨some defaultSession, expression, path, none, none, none, defaultCourse, defaultRole⟩)
        ((Field.nonEmptyString (.str formula)).under expressionName.outer)
        ((readPath (.str p)).under pathName.outer) := by
  cases hformula : Field.nonEmptyString (.str formula) <;> cases hpath : readPath (.str p) <;>
    simp [ofFields, Field.withDefault, Field.required, given, Field.givenName, Fields.get?,
      Field.noOthers, allNames, sessionName, expressionName, pathName, indexName, preferredName,
      kindName, courseName, roleName, hformula, hpath, Checked.map2, Checked.both, Checked.under,
      Checked.alsoOk, Except.map]

theorem accepts_iff {formula p : String} :
    Accepts formula p ↔ formula ≠ "" ∧ Path.isValid p = true := by
  rw [Accepts, ofFields_eq, nonEmptyString_str, readPath_str]
  constructor
  · rintro ⟨r, hr, -⟩
    obtain ⟨_, _, hformula, hpath, -⟩ := Checked.map2_eq_ok_iff.1 hr
    refine ⟨fun hempty => ?_, ?_⟩
    · rw [if_pos hempty] at hformula
      cases hformula
    · by_contra hp
      rw [if_neg hp] at hpath
      cases hpath
  · rintro ⟨hformula, hp⟩
    rw [if_neg hformula, if_pos hp]
    exact ⟨_, rfl, rfl⟩

/-- A request is made with a path exactly when the path is well formed.  The addresses are
the well-formed paths without a line feed, and a well-formed path is an address with a line
feed after some of its operands. -/
theorem accepted_paths_are_addresses (formula p : String) :
    (Path.IsAddress p ↔ Path.isValid p = true ∧ '\n' ∉ p.toList) ∧
      (Path.isValid p = true ↔ ∃ q, Path.IsAddress q ∧ Path.Padded q p) ∧
      (Accepts formula p ↔ formula ≠ "" ∧ Path.isValid p = true) :=
  ⟨Path.isAddress_iff, Path.isValid_iff, accepts_iff⟩

/-- An operand's path with a line feed after it is well formed, and no node has it. -/
theorem not_forall_isValid_iff_isAddress :
    ¬ ∀ p, Path.isValid p = true ↔ Path.IsAddress p := by
  intro h
  have hvalid : Path.isValid "term[0]\n" = true := by decide
  have haddress := (h "term[0]\n").1 hvalid
  exact absurd (Path.isAddress_iff.1 haddress).2 (by decide)

end StepRequest
end FormulaMap

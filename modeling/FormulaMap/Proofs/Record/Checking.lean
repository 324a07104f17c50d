/-
What checked data is made from.

A check of several things passes when each of them does, with the value that is made from
theirs.  There is one lemma for each way to put checks together and for each kind of field, so
that a record is read exactly when its fields are as these lemmas say.
-/
import FormulaMap.Record.Field

namespace FormulaMap

/-! ## Putting checks together -/

namespace Checked

variable {α β γ : Type} {x : Checked α} {y : Checked β} {a : α} {c : γ}

@[simp] theorem fail_ne_ok (c : ProblemCause) (a : α) : ¬fail c = .ok a := nofun

theorem exists_error_iff : (∃ ps, x = .error ps) ↔ ∀ a, ¬x = .ok a := by
  cases x with
  | ok a => simp
  | error ps => simp

@[simp] theorem under_eq_ok_iff {key : String} : under key x = .ok a ↔ x = .ok a := by
  cases x <;> simp [under]

@[simp] theorem both_eq_ok_iff {p : α × β} : both x y = .ok p ↔ x = .ok p.1 ∧ y = .ok p.2 := by
  obtain ⟨a, b⟩ := p
  cases x <;> cases y <;> simp [both]

@[simp] theorem map2_eq_ok_iff {f : α → β → γ} :
    map2 f x y = .ok c ↔ ∃ a b, x = .ok a ∧ y = .ok b ∧ f a b = c := by
  cases x <;> cases y <;> simp [map2, both, Except.map]

@[simp] theorem alsoOk_eq_ok_iff {y : Checked Unit} : alsoOk x y = .ok a ↔ x = .ok a ∧ y = .ok () := by
  rw [alsoOk, map2_eq_ok_iff]
  constructor
  · rintro ⟨_, _, hx, hy, rfl⟩
    exact ⟨hx, hy⟩
  · rintro ⟨hx, hy⟩
    exact ⟨a, (), hx, hy, rfl⟩

@[simp] theorem ensure_eq_ok_iff {rule : α → Option ProblemCause} :
    ensure rule x = .ok a ↔ x = .ok a ∧ rule a = none := by
  cases x with
  | error ps => simp [ensure]
  | ok b =>
    rw [ensure]
    cases hrule : rule b with
    | none =>
      simp only [Except.ok.injEq, iff_self_and]
      rintro rfl
      exact hrule
    | some c =>
      simp only [fail_ne_ok, Except.ok.injEq, false_iff, not_and]
      rintro rfl
      simp [hrule]

theorem map_eq_ok_iff {f : α → γ} : x.map f = .ok c ↔ ∃ a, x = .ok a ∧ f a = c := by
  cases x <;> simp [Except.map]

@[simp] theorem all_eq_ok_iff {xs : List (Checked α)} {as : List α} :
    all xs = .ok as ↔ xs = as.map .ok := by
  induction xs generalizing as with
  | nil => cases as <;> simp [all]
  | cons x xs ih =>
    rw [all, map2_eq_ok_iff]
    cases as with
    | nil => simp
    | cons a as => simp [ih]

/-- The places of the problems have no part in what is read. -/
theorem all_under_eq_ok_iff (read : β → Checked α) {xs : List β} {as : List α} :
    all (xs.zipIdx.map fun p => under (Nat.repr p.2) (read p.1)) = .ok as ↔
      xs.map read = as.map .ok := by
  rw [all_eq_ok_iff]
  generalize 0 = first
  induction xs generalizing first as with
  | nil => simp
  | cons x xs ih =>
    cases as with
    | nil => simp
    | cons a as => simp [List.zipIdx_cons, ih]

end Checked

/-! ## Fields -/

namespace Field

variable {α : Type} {v : Json} {s : String} {fs : Fields Json} {key : String}
  {read : Json → Checked α} {a : α}

@[simp] theorem string_eq_ok_iff : string v = .ok s ↔ v = .str s := by
  cases v <;> simp [string]

@[simp] theorem nonEmptyString_eq_ok_iff : nonEmptyString v = .ok s ↔ v = .str s ∧ s ≠ "" := by
  rw [nonEmptyString, Checked.ensure_eq_ok_iff, string_eq_ok_iff]
  simp

/-- A text that may be null. -/
@[simp] theorem optional_string_eq_ok_iff {o : Option String} :
    optional string v = .ok o ↔ v = .ofString? o := by
  cases v <;> cases o <;>
    simp [optional, string, Json.ofString?, Json.ofOption, Except.map, Checked.fail]

@[simp] theorem oneOf_eq_ok_iff {texts : List String} :
    oneOf texts v = .ok s ↔ v = .str s ∧ s ∈ texts := by
  cases v with
  | str t =>
    by_cases ht : t ∈ texts
    · simp only [oneOf, List.contains_iff_mem, ht, if_true, Except.ok.injEq, Json.str.injEq,
        iff_self_and]
      rintro rfl
      exact ht
    · simp only [oneOf, List.contains_iff_mem, ht, if_false, Checked.fail_ne_ok, Json.str.injEq,
        false_iff, not_and]
      rintro rfl
      exact ht
  | _ => simp [oneOf]

theorem list_eq_ok_iff {as : List α} :
    list read v = .ok as ↔ ∃ xs, v = .arr xs ∧ xs.map read = as.map .ok := by
  cases v with
  | arr xs =>
    rw [list]
    refine (Checked.all_under_eq_ok_iff read).trans ?_
    simp
  | _ => simp [list]

@[simp] theorem list_string_eq_ok_iff {ss : List String} :
    list string v = .ok ss ↔ v = .arr (ss.map .str) := by
  rw [list_eq_ok_iff]
  have hitems : ∀ xs : List Json, xs.map string = ss.map .ok ↔ xs = ss.map .str := by
    intro xs
    induction xs generalizing ss with
    | nil => cases ss <;> simp
    | cons x xs ih => cases ss <;> simp [ih]
  simp [hitems]

@[simp] theorem texts_eq_ok_iff {ds : Fields String} :
    texts v = .ok ds ↔ v = .obj (ds.map fun (k, s) => (k, .str s)) := by
  cases v with
  | obj fs =>
    rw [texts, Checked.all_eq_ok_iff, Json.obj.injEq]
    induction fs generalizing ds with
    | nil => cases ds <;> simp
    | cons f fs ih =>
      obtain ⟨k, v⟩ := f
      cases ds with
      | nil => simp
      | cons d ds =>
        obtain ⟨k', s⟩ := d
        simp [ih, Checked.map_eq_ok_iff, and_assoc, and_left_comm]
  | _ => simp [texts]

@[simp] theorem required_eq_ok_iff :
    required fs key read = .ok a ↔ ∃ v, Fields.get? key fs = some v ∧ read v = .ok a := by
  rw [required]
  cases Fields.get? key fs <;> simp

theorem required_string_eq_ok_iff :
    required fs key string = .ok s ↔ Fields.get? key fs = some (.str s) := by
  simp

theorem required_nonEmptyString_eq_ok_iff :
    required fs key nonEmptyString = .ok s ↔ Fields.get? key fs = some (.str s) ∧ s ≠ "" := by
  rw [required_eq_ok_iff]
  constructor
  · rintro ⟨v, hv, hs⟩
    obtain ⟨rfl, hne⟩ := nonEmptyString_eq_ok_iff.1 hs
    exact ⟨hv, hne⟩
  · rintro ⟨hv, hne⟩
    exact ⟨_, hv, nonEmptyString_eq_ok_iff.2 ⟨rfl, hne⟩⟩

@[simp] theorem withDefault_eq_ok_iff {d : α} : withDefault fs key d read = .ok a ↔
    (Fields.get? key fs = none ∧ a = d) ∨ ∃ v, Fields.get? key fs = some v ∧ read v = .ok a := by
  rw [withDefault]
  cases Fields.get? key fs with
  | none => simp [eq_comm]
  | some v => simp

/-- With a reader that takes `default` for what is left out, nothing is left out. -/
theorem withDefault_eq_ok_iff_getD {d : α} (default : Json)
    (h : ∀ b, read default = .ok b ↔ b = d) :
    withDefault fs key d read = .ok a ↔ read ((Fields.get? key fs).getD default) = .ok a := by
  rw [withDefault_eq_ok_iff]
  cases Fields.get? key fs <;> simp [h]

/-- A text that may be left out or null. -/
theorem optionalText_eq_ok_iff {o : Option String} :
    withDefault fs key none (optional string) = .ok o ↔
      (Fields.get? key fs).getD .null = .ofString? o := by
  rw [withDefault_eq_ok_iff_getD .null, optional_string_eq_ok_iff]
  intro p
  cases p <;> simp [Json.ofString?, Json.ofOption]

@[simp] theorem noOthers_eq_ok_iff {keys : List String} :
    noOthers fs keys = .ok () ↔ ∀ f ∈ fs, f.1 ∈ keys := by
  rw [noOthers]
  split
  · next h =>
    rw [List.map_eq_nil_iff, List.filter_eq_nil_iff] at h
    simpa using h
  · next hne =>
    refine ⟨nofun, fun h => absurd ?_ hne⟩
    rw [List.map_eq_nil_iff, List.filter_eq_nil_iff]
    simpa using h

end Field
end FormulaMap

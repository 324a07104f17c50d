/-
What represents an expression.

`Represents v e` says which data stand for an expression: there is one case for each kind of
node, and it names the fields that count, whatever other fields there are.  Reading accepts
exactly what represents something and gives what it represents (`ofJson_eq_ok_iff`).  What is
written for an expression represents it, and without the paths it represents the expression
without its paths.
-/
import FormulaMap.Formula.Data
import FormulaMap.Proofs.Record.Checking

namespace FormulaMap

theorem BinaryOperation.ofSymbol?_eq_some_iff {s : String} {o : BinaryOperation} :
    ofSymbol? s = some o ↔ s = o.symbol := by
  refine ⟨fun h => ?_, fun h => h ▸ ofSymbol?_symbol o⟩
  rw [ofSymbol?] at h
  repeat' split at h
  any_goals cases h
  all_goals next hs => exact eq_of_beq hs

namespace Expr

/-- The path that a record gives; one that is left out is none, like null. -/
def GivesPath (fs : Fields Json) (p : Option String) : Prop :=
  (Fields.get? "path" fs).getD .null = .ofString? p

inductive Represents : Json → Expr → Prop
  | numeral {fs : Fields Json} {t : String} {p : Option String} :
      Fields.get? "node" fs = some (.str "integer") → Fields.get? "value" fs = some (.str t) →
      t ≠ "" → GivesPath fs p → Represents (.obj fs) (.numeral t p)
  | binary {fs : Fields Json} {o : BinaryOperation} {v w : Json} {l r : Expr} {p : Option String} :
      Fields.get? "node" fs = some (.str "binaryOp") →
      Fields.get? "op" fs = some (.str o.symbol) →
      Fields.get? "left" fs = some v → Represents v l →
      Fields.get? "right" fs = some w → Represents w r →
      GivesPath fs p → Represents (.obj fs) (.binary o l r p)
  /-- The sign may be left out. -/
  | negation {fs : Fields Json} {v : Json} {a : Expr} {p : Option String} :
      Fields.get? "node" fs = some (.str "unaryOp") →
      (Fields.get? "op" fs).getD (.str "-") = .str "-" →
      Fields.get? "arg" fs = some v → Represents v a →
      GivesPath fs p → Represents (.obj fs) (.negation a p)
  | fraction {fs : Fields Json} {v w : Json} {n d : Expr} {p : Option String} :
      Fields.get? "node" fs = some (.str "fraction") →
      Fields.get? "args" fs = some (.arr [v, w]) → Represents v n → Represents w d →
      GivesPath fs p → Represents (.obj fs) (.fraction n d p)
  | mixed {fs : Fields Json} {w n d : String} {p : Option String} :
      Fields.get? "node" fs = some (.str "mixed") →
      Fields.get? "whole" fs = some (.str w) → w ≠ "" →
      Fields.get? "numerator" fs = some (.str n) → n ≠ "" →
      Fields.get? "denominator" fs = some (.str d) → d ≠ "" →
      GivesPath fs p → Represents (.obj fs) (.mixed w n d p)

variable {fs : Fields Json} {key : String} {v : Json} {e : Expr} {p : Option String}

/-! ## The readers of one node -/

theorem readChild_eq : readChild key fs = (Fields.get? key fs).map readNode := by
  induction fs with
  | nil => rfl
  | cons f fs ih =>
    obtain ⟨k, v⟩ := f
    rw [readChild, ih, Fields.get?_cons]
    split <;> rfl

theorem readItems_eq (xs : List Json) : readItems xs = xs.map readNode := by
  induction xs with
  | nil => rfl
  | cons x xs ih => rw [readItems, ih, List.map_cons]

theorem readArgs_eq : readArgs fs = (Fields.get? "args" fs).map readList := by
  induction fs with
  | nil => rfl
  | cons f fs ih =>
    obtain ⟨k, v⟩ := f
    rw [readArgs, ih, Fields.get?_cons]
    split <;> rfl

theorem readPath_eq_ok_iff : readPath fs = .ok p ↔ GivesPath fs p :=
  Field.optionalText_eq_ok_iff

theorem readOperation_eq_ok_iff {o : BinaryOperation} :
    readOperation v = .ok o ↔ v = .str o.symbol := by
  cases v with
  | str s =>
    rw [readOperation, Json.str.injEq, ← BinaryOperation.ofSymbol?_eq_some_iff]
    cases BinaryOperation.ofSymbol? s <;> simp
  | _ => simp [readOperation]

theorem childAt_eq_ok_iff : childAt key (readChild key fs) = .ok e ↔
    ∃ v, Fields.get? key fs = some v ∧ readNode v = .ok e := by
  rw [childAt, readChild_eq, Checked.under_eq_ok_iff]
  cases Fields.get? key fs <;> simp

theorem readArguments_some_eq_ok_iff {cs : List (Checked Expr)} {n d : Expr} :
    readArguments (some (some cs)) = .ok (n, d) ↔ cs = [.ok n, .ok d] := by
  rw [readArguments.eq_def, Checked.under_eq_ok_iff]
  constructor
  · intro h
    dsimp only at h
    split at h
    · cases h
    · split at h
      · cases h
      · next hall =>
        cases h
        simpa using (Checked.all_under_eq_ok_iff id).1 hall
      · cases h
  · rintro rfl
    rfl

theorem readArguments_eq_ok_iff {n d : Expr} : readArguments (readArgs fs) = .ok (n, d) ↔
    ∃ v w, Fields.get? "args" fs = some (.arr [v, w]) ∧ readNode v = .ok n ∧ readNode w = .ok d := by
  rw [readArgs_eq]
  cases Fields.get? "args" fs with
  | none => simp [readArguments]
  | some args =>
    cases args with
    | arr xs =>
      rw [Option.map_some, readList, readItems_eq, readArguments_some_eq_ok_iff]
      constructor
      · intro h
        obtain ⟨v, vs, rfl, hv, hvs⟩ := List.map_eq_cons_iff.1 h
        obtain ⟨w, ws, rfl, hw, hws⟩ := List.map_eq_cons_iff.1 hvs
        rw [List.map_eq_nil_iff.1 hws]
        exact ⟨v, w, rfl, hv, hw⟩
      · rintro ⟨v, w, heq, hv, hw⟩
        cases heq
        rw [List.map_cons, List.map_singleton, hv, hw]
    | _ => simp [readList, readArguments]

/-- A sign that is left out is the only one there is. -/
theorem readSign_eq_ok_iff {s : String} : Field.withDefault fs "op" "-" (Field.oneOf ["-"]) = .ok s ↔
    (Fields.get? "op" fs).getD (.str "-") = .str "-" ∧ s = "-" := by
  rw [Field.withDefault_eq_ok_iff_getD (.str "-"), Field.oneOf_eq_ok_iff,
    List.mem_singleton]
  · refine and_congr_left fun hs => ?_
    rw [hs]
  · intro b
    rw [Field.oneOf_eq_ok_iff, List.mem_singleton]
    simp [eq_comm]

theorem readNumeral_eq_ok_iff : readNumeral fs = .ok e ↔
    ∃ t p, Fields.get? "value" fs = some (.str t) ∧ t ≠ "" ∧ GivesPath fs p ∧ numeral t p = e := by
  simp only [readNumeral, Checked.map2_eq_ok_iff, Field.required_nonEmptyString_eq_ok_iff,
    readPath_eq_ok_iff]
  exact exists₂_congr fun t p => and_assoc

theorem readMixed_eq_ok_iff : readMixed fs = .ok e ↔
    ∃ w n d p, Fields.get? "whole" fs = some (.str w) ∧ w ≠ "" ∧
      Fields.get? "numerator" fs = some (.str n) ∧ n ≠ "" ∧
      Fields.get? "denominator" fs = some (.str d) ∧ d ≠ "" ∧ GivesPath fs p ∧
      mixed w n d p = e := by
  simp only [readMixed, Checked.map2_eq_ok_iff, Checked.both_eq_ok_iff,
    Field.required_nonEmptyString_eq_ok_iff, readPath_eq_ok_iff, Prod.exists, and_assoc]

/-! ## Reading -/

theorem represents_of_readNode {v : Json} {e : Expr} (h : readNode v = .ok e) :
    Represents v e := by
  rw [readNode.eq_def] at h
  split at h
  · next fs =>
    split at h
    · cases h
    · next htag =>
      rw [Checked.under_eq_ok_iff, readNumeral_eq_ok_iff] at h
      obtain ⟨t, p, ht, hne, hp, rfl⟩ := h
      exact .numeral htag ht hne hp
    · next htag =>
      rw [Checked.under_eq_ok_iff, readMixed_eq_ok_iff] at h
      obtain ⟨w, n, d, p, hw, hw', hn, hn', hd, hd', hp, rfl⟩ := h
      exact .mixed htag hw hw' hn hn' hd hd' hp
    · next htag =>
      simp only [Checked.under_eq_ok_iff, Checked.map2_eq_ok_iff, Checked.both_eq_ok_iff,
        childAt_eq_ok_iff, readPath_eq_ok_iff, Field.required_eq_ok_iff,
        readOperation_eq_ok_iff] at h
      obtain ⟨⟨o, l, r⟩, p, ⟨⟨_, ho, rfl⟩, ⟨v, hv, hl⟩, w, hw, hr⟩, hp, rfl⟩ := h
      exact .binary htag ho hv (represents_of_readNode hl) hw (represents_of_readNode hr) hp
    · next htag =>
      simp only [Checked.under_eq_ok_iff, Checked.map2_eq_ok_iff, Checked.both_eq_ok_iff,
        childAt_eq_ok_iff, readPath_eq_ok_iff, readSign_eq_ok_iff] at h
      obtain ⟨⟨_, a⟩, p, ⟨⟨hop, -⟩, v, hv, ha⟩, hp, rfl⟩ := h
      exact .negation htag hop hv (represents_of_readNode ha) hp
    · next htag =>
      simp only [Checked.under_eq_ok_iff, Checked.map2_eq_ok_iff, readArguments_eq_ok_iff,
        readPath_eq_ok_iff, Prod.exists] at h
      obtain ⟨n, d, p, ⟨v, w, hargs, hn, hd⟩, hp, rfl⟩ := h
      exact .fraction htag hargs (represents_of_readNode hn) (represents_of_readNode hd) hp
    · cases h
  · cases h
termination_by sizeOf e

theorem Represents.readNode_eq (h : Represents v e) : readNode v = .ok e := by
  induction h with
  | numeral htag ht hne hp =>
    simp only [readNode, htag, Checked.under_eq_ok_iff, readNumeral_eq_ok_iff]
    exact ⟨_, _, ht, hne, hp, rfl⟩
  | mixed htag hw hw' hn hn' hd hd' hp =>
    simp only [readNode, htag, Checked.under_eq_ok_iff, readMixed_eq_ok_iff]
    exact ⟨_, _, _, _, hw, hw', hn, hn', hd, hd', hp, rfl⟩
  | binary htag ho hl _ hr _ hp ihl ihr =>
    simp only [readNode, htag, Checked.under_eq_ok_iff, Checked.map2_eq_ok_iff,
      Checked.both_eq_ok_iff, childAt_eq_ok_iff, readPath_eq_ok_iff, Field.required_eq_ok_iff,
      readOperation_eq_ok_iff]
    exact ⟨(_, _, _), _, ⟨⟨_, ho, rfl⟩, ⟨_, hl, ihl⟩, _, hr, ihr⟩, hp, rfl⟩
  | negation htag hop ha _ hp ih =>
    simp only [readNode, htag, Checked.under_eq_ok_iff, Checked.map2_eq_ok_iff,
      Checked.both_eq_ok_iff, childAt_eq_ok_iff, readPath_eq_ok_iff, readSign_eq_ok_iff]
    exact ⟨(_, _), _, ⟨⟨hop, rfl⟩, _, ha, ih⟩, hp, rfl⟩
  | fraction htag hargs _ _ hp ihn ihd =>
    simp only [readNode, htag, Checked.under_eq_ok_iff, Checked.map2_eq_ok_iff,
      readPath_eq_ok_iff]
    exact ⟨(_, _), _, readArguments_eq_ok_iff.2 ⟨_, _, hargs, ihn, ihd⟩, hp, rfl⟩

/-- Exactly what represents an expression is accepted. -/
theorem ofJson_eq_ok_iff : ofJson v = .ok e ↔ Represents v e :=
  ⟨represents_of_readNode, Represents.readNode_eq⟩

theorem Represents.textsPresent (h : Represents v e) : e.textsPresent = true := by
  induction h with
  | numeral _ _ hne _ => simp [Expr.textsPresent, hne]
  | mixed _ _ hw _ hn _ hd _ => simp [Expr.textsPresent, hw, hn, hd]
  | binary _ _ _ _ _ _ _ ihl ihr => simp [Expr.textsPresent, ihl, ihr]
  | negation _ _ _ _ _ ih => exact ih
  | fraction _ _ _ _ _ ihn ihd => simp [Expr.textsPresent, ihn, ihd]

/-! ## Writing -/

theorem givesPath_append (h : Fields.get? "path" fs = none) (p : Option String) :
    GivesPath (fs ++ pathField p) p := by
  rw [GivesPath, Fields.get?_append, h, Option.none_or]
  cases p <;> rfl

theorem represents_toJson (h : e.textsPresent = true) : Represents e.toJson e := by
  induction e with
  | numeral t p =>
    have hne : t ≠ "" := by simpa [textsPresent] using h
    exact .numeral rfl rfl hne (givesPath_append rfl p)
  | mixed w n d p =>
    have hne : (w ≠ "" ∧ n ≠ "") ∧ d ≠ "" := by simpa [textsPresent] using h
    exact .mixed rfl rfl hne.1.1 rfl hne.1.2 rfl hne.2 (givesPath_append rfl p)
  | binary o l r p ihl ihr =>
    rw [textsPresent, Bool.and_eq_true] at h
    exact .binary rfl rfl rfl (ihl h.1) rfl (ihr h.2) (givesPath_append rfl p)
  | negation a p ih => exact .negation rfl rfl rfl (ih h) (givesPath_append rfl p)
  | fraction n d p ihn ihd =>
    rw [textsPresent, Bool.and_eq_true] at h
    exact .fraction rfl rfl (ihn h.1) (ihd h.2) (givesPath_append rfl p)

theorem textsPresent_bare (e : Expr) : e.bare.textsPresent = e.textsPresent := by
  induction e with
  | numeral t p => rfl
  | mixed w n d p => rfl
  | binary o l r p ihl ihr => rw [bare, textsPresent, textsPresent, ihl, ihr]
  | negation a p ih => exact ih
  | fraction n d p ihn ihd => rw [bare, textsPresent, textsPresent, ihn, ihd]

theorem fieldsWithout_append (fs gs : Fields Json) :
    Json.fieldsWithout key (fs ++ gs) = Json.fieldsWithout key fs ++ Json.fieldsWithout key gs := by
  induction fs with
  | nil => rfl
  | cons f fs ih =>
    obtain ⟨k, v⟩ := f
    rw [List.cons_append, Json.fieldsWithout, Json.fieldsWithout, ih]
    split <;> rfl

theorem fieldsWithout_pathField (p : Option String) :
    Json.fieldsWithout "path" (pathField p) = [] := by
  cases p <;> rfl

/-- Leaving the paths out of what is written is writing the expression without its paths. -/
theorem toPlainJson_eq (e : Expr) : e.toPlainJson = e.bare.toJson := by
  rw [toPlainJson]
  induction e with
  | numeral t p =>
    rw [toJson, Json.without, fieldsWithout_append, fieldsWithout_pathField]
    rfl
  | mixed w n d p =>
    rw [toJson, Json.without, fieldsWithout_append, fieldsWithout_pathField]
    rfl
  | binary o l r p ihl ihr =>
    rw [toJson, Json.without, fieldsWithout_append, fieldsWithout_pathField, bare, toJson, ← ihl,
      ← ihr]
    rfl
  | negation a p ih =>
    rw [toJson, Json.without, fieldsWithout_append, fieldsWithout_pathField, bare, toJson, ← ih]
    rfl
  | fraction n d p ihn ihd =>
    rw [toJson, Json.without, fieldsWithout_append, fieldsWithout_pathField, bare, toJson, ← ihn,
      ← ihd]
    rfl

/-- Every expression with texts in its literals is read back from what is written for it, and
without its paths from what is written without them.  Whatever is accepted is read as such an
expression, so writing it again gives the same expression. -/
theorem reads_back (e : Expr) :
    (e.textsPresent = true → ofJson e.toJson = .ok e ∧ ofJson e.toPlainJson = .ok e.bare) ∧
      ∀ v, ofJson v = .ok e → e.textsPresent = true ∧ ofJson e.toJson = .ok e := by
  refine ⟨fun h => ⟨ofJson_eq_ok_iff.2 (represents_toJson h), ?_⟩, fun v hv => ?_⟩
  · rw [toPlainJson_eq, ofJson_eq_ok_iff]
    exact represents_toJson ((textsPresent_bare e).trans h)
  · have h := (ofJson_eq_ok_iff.1 hv).textsPresent
    exact ⟨h, ofJson_eq_ok_iff.2 (represents_toJson h)⟩

/-- The opposite of a fraction with a path, an empty path and a missing one. -/
def negatedFraction : Expr :=
  .negation (.fraction (.numeral "1" (some "")) (.mixed "2" "3" "4" none) (some "root.arg")) none

/-- The same with a field that is not known, a null path and without the sign. -/
def looseNegatedFraction : Json :=
  .obj [("node", .str "unaryOp"), ("color", .str "red"), ("path", .null),
    ("arg", .obj [("path", .str "root.arg"), ("node", .str "fraction"),
      ("args", .arr [.obj [("node", .str "integer"), ("value", .str "1"), ("path", .str "")],
        .obj [("node", .str "mixed"), ("denominator", .str "4"), ("numerator", .str "3"),
          ("whole", .str "2")]])])]

theorem negatedFraction_reads_back : negatedFraction.textsPresent = true ∧
    ofJson negatedFraction.toJson = .ok negatedFraction ∧
    ofJson negatedFraction.toPlainJson = .ok negatedFraction.bare ∧
    ofJson looseNegatedFraction = .ok negatedFraction := by
  have htexts : negatedFraction.textsPresent = true := by decide
  have hloose : ofJson looseNegatedFraction = .ok negatedFraction := rfl
  obtain ⟨hback, hagain⟩ := reads_back negatedFraction
  exact ⟨htexts, (hagain _ hloose).2, (hback htexts).2, hloose⟩

end Expr
end FormulaMap

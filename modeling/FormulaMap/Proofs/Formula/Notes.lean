/-
The notes of an annotated source, read back from its text.

`heads` goes through a text from left to right and reads, wherever the command stands, the
group behind it; `entries` reads a note.  The heads of a source are the notes of its markup
when the command begins only at annotations and no note has a brace or a backslash
(`heads_render_append`), and the notes of an expression are those of its nodes in reading
order, signs left out (`notes_markup`).

A path that has been assigned has none of the characters that end an entry or a note, so
what is read is the path itself (`entries_note`).  Together: the heads announce the nodes,
each once and by its own path (`announced_assignPaths`).
-/
import FormulaMap.Proofs.Formula.Descriptors
import FormulaMap.Proofs.Formula.PathLanguage
import Mathlib.Data.List.Forall2

namespace FormulaMap

/-! ## The characters of a path -/

namespace Path

open Annotations

theorem plain_ofSteps (steps : List PathStep) : (ofSteps steps).toList.all isPlainChar = true := by
  have hplain : alphabet.all isPlainChar = true := by decide
  exact List.all_eq_true.2 fun c hc => List.all_eq_true.1 hplain c (mem_alphabet hc)

theorem comma_not_mem_ofSteps (steps : List PathStep) : ',' ∉ (ofSteps steps).toList :=
  fun hcomma => absurd (mem_alphabet hcomma) (by decide)

end Path

namespace Annotations

open Markup

/-! ## Reading heads -/

/-- What stands in the group behind each place of the command, from left to right. -/
def heads : List Char → List (Option (List Char))
  | [] => []
  | c :: cs =>
    if command.isPrefixOf (c :: cs) then
      (group? ((c :: cs).drop command.length)).map Prod.fst :: heads cs
    else heads cs

theorem heads_cons {c : Char} {cs : List Char} (h : ¬ command <+: c :: cs) :
    heads (c :: cs) = heads cs := by
  rw [heads, if_neg]
  rwa [List.isPrefixOf_iff_prefix]

theorem heads_append {cs rest : List Char} (h : NoCommand cs rest) :
    heads (cs ++ rest) = heads rest := by
  induction cs with
  | nil => rfl
  | cons c cs ih =>
    have hhead := h (c :: cs) (List.suffix_refl _) (List.cons_ne_nil _ _)
    have htail : NoCommand cs rest := fun s hs => h s (hs.trans (List.suffix_cons c cs))
    rw [List.cons_append] at hhead ⊢
    rw [heads_cons hhead, ih htail]

theorem heads_command (cs : List Char) :
    heads (command ++ cs) = (group? cs).map Prod.fst :: heads cs := by
  have hcommand : command = '\\' :: "htmlData".toList := rfl
  have hname : NoCommand "htmlData".toList cs := noCommand_of_no_slash (by decide) cs
  have hprefix : command.isPrefixOf (command ++ cs) = true :=
    List.isPrefixOf_iff_prefix.2 (List.prefix_append _ _)
  calc heads (command ++ cs)
      = heads ('\\' :: ("htmlData".toList ++ cs)) := by rw [hcommand, List.cons_append]
    _ = (group? ((command ++ cs).drop command.length)).map Prod.fst ::
          heads ("htmlData".toList ++ cs) := by
        rw [heads, ← List.cons_append, ← hcommand, if_pos hprefix]
    _ = (group? cs).map Prod.fst :: heads cs := by rw [List.drop_left, heads_append hname]

/-- Nothing begins inside a note without braces and backslashes. -/
theorem heads_note {note : List Char} (h : note.all isPlainChar = true) (rest : List Char) :
    heads (command ++ braced note ++ rest) = some note :: heads rest := by
  have hbraced : NoCommand (braced note) rest := by
    refine noCommand_of_no_slash ?_ rest
    simpa [braced] using no_slash_of_plain h
  rw [List.append_assoc, heads_command, group?_braced (passes_of_no_brace (no_brace_of_plain h)),
    heads_append hbraced]
  rfl

theorem heads_render_append {m : Markup} {rest : List Char} (hheaded : m.Headed rest)
    (hnotes : ∀ note ∈ m.notes, note.all isPlainChar = true) :
    heads (m.render ++ rest) = m.notes.map some ++ heads rest := by
  have hopen : ∀ us, NoCommand ['{'] us := noCommand_of_no_slash (by decide)
  have hclose : ∀ us, NoCommand ['}'] us := noCommand_of_no_slash (by decide)
  have hbraced : ∀ cs us, braced cs ++ us = ['{'] ++ (cs ++ (['}'] ++ us)) := by
    simp [braced]
  induction m generalizing rest with
  | text cs => exact heads_append hheaded
  | seq a b iha ihb =>
    rw [notes, List.forall_mem_append] at hnotes
    rw [render, List.append_assoc, iha hheaded.1 hnotes.1, ihb hheaded.2 hnotes.2, notes,
      List.map_append, List.append_assoc]
  | group m ih =>
    have hbody : m.Headed (['}'] ++ rest) := hheaded
    rw [render, hbraced, heads_append (hopen _), ih hbody hnotes, heads_append (hclose _), notes]
  | annotated note m ih =>
    have hbody : m.Headed (['}'] ++ rest) := hheaded
    rw [notes, List.forall_mem_cons] at hnotes
    rw [render, List.append_assoc, heads_note hnotes.1, hbraced, heads_append (hopen _),
      ih hbody hnotes.2, heads_append (hclose _), notes, List.map_cons, List.cons_append]

/-! ## Reading a note -/

/-- An entry is a key and a value with an equals sign between them; blanks before the key
do not count. -/
def entry (cs : List Char) : String × String :=
  (String.ofList ((cs.takeWhile (· != '=')).dropWhile Text.isBlank),
    String.ofList ((cs.dropWhile (· != '=')).drop 1))

/-- The entries of a note stand between commas. -/
def entries (note : List Char) : List (String × String) := (note.splitOn ',').map entry

theorem entry_append {key : List Char} (h : '=' ∉ key) (value : List Char) :
    entry (key ++ '=' :: value) =
      (String.ofList (key.dropWhile Text.isBlank), String.ofList value) := by
  have hkey : ∀ c ∈ key, (c != '=') = true := by
    intro c hc
    rw [bne_iff_ne]
    rintro rfl
    exact h hc
  rw [entry, List.takeWhile_append_of_pos hkey, List.dropWhile_append_of_pos hkey]
  simp

/-- A key and a value as they are written in a note. -/
def field (f : String × String) : List Char := f.1.toList ++ '=' :: f.2.toList

theorem entries_intercalate {fs : List (String × String)} (hne : fs ≠ [])
    (hkeys : ∀ f ∈ fs, '=' ∉ f.1.toList) (hcommas : ∀ f ∈ fs, ',' ∉ field f) :
    entries (List.intercalate [','] (fs.map field)) =
      fs.map fun f => (String.ofList (f.1.toList.dropWhile Text.isBlank), f.2) := by
  rw [entries, List.splitOn_intercalate, List.map_map]
  · refine List.map_congr_left fun f hf => ?_
    rw [Function.comp_apply, field, entry_append (hkeys f hf), String.ofList_toList]
  · intro l hl
    obtain ⟨f, hf, rfl⟩ := List.mem_map.1 hl
    exact hcommas f hf
  · simpa using hne

/-- The fields of a note, with the blanks before their keys. -/
def noteFields (p : String) (r : Role) (o : Option BinaryOperation) : List (String × String) :=
  ("ast-id", p) :: (" role", r.name) :: o.toList.map fun o => (" operator", o.symbol)

section
variable {p : String} {r : Role} {o : Option BinaryOperation}

theorem eq_of_mem_noteFields {f : String × String} (h : f ∈ noteFields p r o) :
    f = ("ast-id", p) ∨ f = (" role", r.name) ∨
      ∃ o : BinaryOperation, f = (" operator", o.symbol) := by
  rw [noteFields, List.mem_cons, List.mem_cons, List.mem_map] at h
  rcases h with h | h | ⟨o, -, h⟩
  · exact Or.inl h
  · exact Or.inr (Or.inl h)
  · exact Or.inr (Or.inr ⟨o, h.symm⟩)

theorem note_eq (hp : p.toList.all isPlainChar = true) :
    note (some p) r (o.map BinaryOperation.symbol) =
      List.intercalate [','] ((noteFields p r o).map field) := by
  have hescape : escapePath (some p) = p.toList :=
    List.filter_eq_self.2 (List.all_eq_true.1 hp)
  have hid : "ast-id=".toList = "ast-id".toList ++ ['='] := by decide
  have hrole : ", role=".toList = ',' :: " role".toList ++ ['='] := by decide
  have hoperator : ", operator=".toList = ',' :: " operator".toList ++ ['='] := by decide
  unfold note noteFields
  rw [hescape, hid, hrole, hoperator]
  cases o with
  | none => simp [field, List.intercalate_cons_cons]
  | some o => simp [field, List.intercalate_cons_cons]

/-- A path without the characters that end an entry or a note is read back. -/
theorem entries_note (hp : p.toList.all isPlainChar = true) (hcomma : ',' ∉ p.toList) :
    entries (note (some p) r (o.map BinaryOperation.symbol)) =
      ("ast-id", p) :: ("role", r.name) :: o.toList.map fun o => ("operator", o.symbol) := by
  have hid : String.ofList ("ast-id".toList.dropWhile Text.isBlank) = "ast-id" := by decide
  have hrole : String.ofList (" role".toList.dropWhile Text.isBlank) = "role" := by decide
  have hoperator : String.ofList (" operator".toList.dropWhile Text.isBlank) = "operator" := by
    decide
  rw [note_eq hp, entries_intercalate]
  · simp only [noteFields, List.map_cons, List.map_map, Function.comp_def, hid, hrole, hoperator]
  · exact List.cons_ne_nil _ _
  · intro f hf
    rcases eq_of_mem_noteFields hf with rfl | rfl | ⟨o, rfl⟩
    · exact (by decide : '=' ∉ "ast-id".toList)
    · exact (by decide : '=' ∉ " role".toList)
    · exact (by decide : '=' ∉ " operator".toList)
  · intro f hf
    rcases eq_of_mem_noteFields hf with rfl | rfl | ⟨o, rfl⟩
    · rw [field, List.mem_append, List.mem_cons, not_or, not_or]
      exact ⟨(by decide : ',' ∉ "ast-id".toList), by decide, hcomma⟩
    · cases r <;> decide
    · cases o <;> decide

end

end Annotations

namespace Expr

open Annotations

/-! ## The notes of an expression -/

/-- The role as which a node is annotated; a sign is not annotated. -/
def role? : Expr → Option Role
  | numeral _ _ => some .number
  | binary _ _ _ _ => some .operator
  | negation _ _ => none
  | fraction _ _ _ => some .fraction
  | mixed _ _ _ _ => some .mixed

def binaryOperation? : Expr → Option BinaryOperation
  | binary o _ _ _ => some o
  | _ => none

/-- The note of a node. -/
def note? (e : Expr) : Option (List Char) :=
  e.role?.map fun r => note e.path r (e.binaryOperation?.map BinaryOperation.symbol)

theorem notes_wrapIf (b : Bool) (m : Markup) : (wrapIf b m).notes = m.notes := by
  cases b with
  | false => rfl
  | true => exact List.append_nil _

/-- The notes of the source are those of the nodes, in reading order. -/
theorem notes_markup (e : Expr) : e.markup.notes = e.nodes.filterMap note? := by
  induction e with
  | numeral t p => rfl
  | binary o l r p ihl ihr =>
    have hself : note? (binary o l r p) = some (note p .operator (some o.symbol)) := rfl
    rw [nodes, List.filterMap_append, List.filterMap_cons_some hself, ← ihl, ← ihr]
    simp only [markup, Markup.notes, Markup.ofString, notes_wrapIf, List.nil_append,
      List.cons_append]
  | negation a p ih =>
    have hself : note? (negation a p) = none := rfl
    rw [nodes, List.filterMap_cons_none hself, ← ih]
    exact notes_wrapIf _ _
  | fraction n d p ihn ihd =>
    have hself : note? (fraction n d p) = some (note p .fraction none) := rfl
    rw [nodes, List.filterMap_cons_some hself, List.filterMap_append, ← ihn, ← ihd]
    rfl
  | mixed w n d p => rfl

theorem heads_annotated {e : Expr} (h : e.plainTexts = true) :
    heads e.annotated.toList = (e.nodes.filterMap note?).map some := by
  have hnotes : ∀ note ∈ e.markup.notes, note.all isPlainChar = true := by
    intro note hnote
    rw [notes_markup, List.mem_filterMap] at hnote
    obtain ⟨n, -, hn⟩ := hnote
    obtain ⟨r, -, rfl⟩ := Option.map_eq_some_iff.1 hn
    exact plain_note n.path r n.binaryOperation?
  have hread := heads_render_append (headed_markup h []) hnotes
  rw [List.append_nil, heads, List.append_nil, notes_markup] at hread
  rwa [annotated, String.toList_ofList]

/-! ## The heads announce the nodes -/

def isNegation : Expr → Bool
  | negation _ _ => true
  | _ => false

/-- The head can be read, and it gives the path of the node and its role; it gives an operator
when the node is an operation, and then its symbol. -/
def Announces (head : Option (List Char)) (n : Expr) : Prop :=
  ∃ note p r, head = some note ∧ n.path = some p ∧ n.role? = some r ∧
    entries note = ("ast-id", p) :: ("role", r.name) ::
      n.binaryOperation?.toList.map fun o => ("operator", o.symbol)

theorem isSome_note? (e : Expr) : e.note?.isSome = !e.isNegation := by
  cases e <;> rfl

theorem announces_note {n : Expr} {steps : List PathStep} {note : List Char}
    (hpath : n.path = some (Path.ofSteps steps)) (hnote : n.note? = some note) :
    Announces (some note) n := by
  obtain ⟨r, hr, rfl⟩ := Option.map_eq_some_iff.1 hnote
  refine ⟨_, _, r, rfl, hpath, hr, ?_⟩
  rw [hpath, entries_note (Path.plain_ofSteps steps) (Path.comma_not_mem_ofSteps steps)]

theorem plainTexts_assignFrom (e : Expr) (p : String) :
    (e.assignFrom p).plainTexts = e.plainTexts := by
  induction e generalizing p with
  | numeral t q => rfl
  | binary o l r q ihl ihr => rw [assignFrom, plainTexts, plainTexts, ihl, ihr]
  | negation a q ih => rw [assignFrom, plainTexts, plainTexts, ih]
  | fraction n d q ihn ihd => rw [assignFrom, plainTexts, plainTexts, ihn, ihd]
  | mixed w n d q => rfl

/-- When no text of an expression has a brace or a backslash, the heads of its annotated source
announce its nodes, signs left out, in reading order and each once. -/
theorem announced_assignPaths {e : Expr} (htexts : e.plainTexts = true) :
    List.Forall₂ Announces (heads e.assignPaths.annotated.toList)
      (e.assignPaths.nodes.filter fun n => !n.isNegation) := by
  have hplain : e.assignPaths.plainTexts = true := by
    rw [assignPaths, plainTexts_assignFrom, htexts]
  rw [heads_annotated hplain, List.forall₂_map_left_iff]
  refine forall₂_filterMap (fun n _ => isSome_note? n) ?_
  intro n hn note hnote
  obtain ⟨steps, hpath⟩ := path_of_mem_nodes_assignPaths hn
  exact announces_note hpath hnote

/-- A fraction over a negated sum: the sign is the only node that is not announced. -/
theorem announced_fraction :
    let e : Expr := .fraction (.numeral "-5" none)
      (.negation (.binary .add (.mixed "1" "2" "3" none) (.numeral "x, y=z" none) none) none) none
    let announced := e.assignPaths.nodes.filter fun n => !n.isNegation
    e.plainTexts = true ∧
      List.Forall₂ Announces (heads e.assignPaths.annotated.toList) announced ∧
      announced.map (fun n => (n.path, n.role?)) =
        [(some "root", some .fraction), (some "root.num", some .number),
          (some "root.den.arg.term[0]", some .mixed), (some "root.den.arg", some .operator),
          (some "root.den.arg.term[1]", some .number)] :=
  ⟨by decide, announced_assignPaths (by decide), by decide +kernel⟩

end Expr
end FormulaMap

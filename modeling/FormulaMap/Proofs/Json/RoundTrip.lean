/-
A plain value is read back from what is written for it.

The reader is given the value with any rest behind it that does not go on like a number,
and twice the number of characters as fuel: `Reads` says that it returns the value and
the rest, `items_written` and `members_written` hand this on from the members of a list
or an object to the whole, and `reads` is the induction over the value.  White space behind
the commas, the colons and the value itself is skipped.
-/
import FormulaMap.Proofs.Json.Scalars

namespace FormulaMap
namespace Json

open Token (Delimits delimits_cons)

/-! ## How a value begins -/

/-- The characters that a value begins with. -/
def opensValue (c : Char) : Bool :=
  isDigit c || ['"', '[', '\x7b', '-', 'n', 't', 'f'].contains c

theorem isBlank_of_opensValue {c : Char} (h : opensValue c = true) : Text.isBlank c = false := by
  have hmarks : ∀ d ∈ ['"', '[', '\x7b', '-', 'n', 't', 'f'], Text.isBlank d = false := by
    exact Text.forall_mem_of_all (by decide)
  rw [opensValue, Bool.or_eq_true, List.contains_iff_mem] at h
  rcases h with hdigit | hmark
  · exact Text.isBlank_of_isDigit (Text.isDigit_of_isAsciiDigit hdigit)
  · exact hmarks c hmark

theorem ne_of_opensValue {c d : Char} (h : opensValue c = true) (hd : opensValue d = false) :
    c ≠ d := by
  rintro rfl
  rw [hd] at h
  exact Bool.false_ne_true h

theorem skip_cons {c : Char} (hc : isSpace c = false) (cs : List Char) :
    skip (c :: cs) = c :: cs := by
  rw [skip, List.dropWhile_cons, hc, if_neg Bool.false_ne_true]

theorem continuesNumber_of_isSpace {c : Char} (h : isSpace c = true) :
    continuesNumber c = false := by
  rw [isSpace, Bool.or_eq_true, Bool.or_eq_true, Bool.or_eq_true] at h
  simp only [beq_iff_eq] at h
  rcases h with ((rfl | rfl) | rfl) | rfl <;> decide

theorem skip_append {bs : List Char} (hbs : bs.all isSpace = true) (cs : List Char) :
    skip (bs ++ cs) = skip cs :=
  List.dropWhile_append_of_pos (List.all_eq_true.1 hbs)

theorem isSpace_of_opensValue {c : Char} (h : opensValue c = true) : isSpace c = false := by
  have hne : ∀ d : Char, opensValue d = false → (c == d) = false :=
    fun d hd => beq_false_of_ne (ne_of_opensValue h hd)
  rw [isSpace, hne ' ' (by decide), hne '\t' (by decide), hne '\n' (by decide),
    hne '\r' (by decide)]
  rfl

theorem intChars_eq (i : Int) :
    ∃ d ds, isDigit d = true ∧ (Nat.repr i.natAbs).toList = d :: ds ∧
      intChars i = if i < 0 then '-' :: d :: ds else d :: ds := by
  have hall : ∀ c ∈ (Nat.repr i.natAbs).toList, isDigit c = true :=
    fun c hc => Text.isAsciiDigit_of_isDigit (isDigit_of_mem_repr hc)
  cases heq : (Nat.repr i.natAbs).toList with
  | nil =>
    rw [Nat.toList_repr] at heq
    exact absurd heq Nat.toDigits_ne_nil
  | cons d ds =>
    rw [heq] at hall
    exact ⟨d, ds, hall d List.mem_cons_self, rfl, by rw [intChars, heq]⟩

theorem chars_eq_cons (sep : Separators) {v : Json} (hv : v.Plain) :
    ∃ c cs, chars sep v = c :: cs ∧ opensValue c = true := by
  cases hv with
  | null => exact ⟨'n', _, rfl, by decide⟩
  | bool b =>
    cases b with
    | false => exact ⟨'f', _, rfl, by decide⟩
    | true => exact ⟨'t', _, rfl, by decide⟩
  | int i =>
    obtain ⟨d, ds, hd, -, heq⟩ := intChars_eq i
    rw [chars.eq_def]
    change ∃ c cs, intChars i = c :: cs ∧ opensValue c = true
    rw [heq]
    split
    · exact ⟨'-', _, rfl, by decide⟩
    · exact ⟨d, ds, rfl, by rw [opensValue, hd, Bool.true_or]⟩
  | str s => exact ⟨'"', _, rfl, by decide⟩
  | arr _ => exact ⟨'[', _, rfl, by decide⟩
  | obj _ _ => exact ⟨'\x7b', _, rfl, by decide⟩

theorem skip_chars {sep : Separators} {v : Json} (hv : v.Plain) (rest : List Char) :
    skip (chars sep v ++ rest) = chars sep v ++ rest := by
  obtain ⟨c, cs, heq, hc⟩ := chars_eq_cons sep hv
  rw [heq, List.cons_append, skip_cons (isSpace_of_opensValue hc)]

/-! ## Words and integers -/

theorem value_literal {c : Char} (hquote : c ≠ '"') (hlist : c ≠ '[') (hobject : c ≠ '\x7b')
    (fuel : Nat) (cs : List Char) : value (fuel + 1) (c :: cs) = literal (c :: cs) := by
  rw [value]
  all_goals
    rintro _ heq
    cases heq
    contradiction

theorem ne_of_isDigit {c d : Char} (hc : isDigit c = true) (hd : isDigit d = false) : d ≠ c := by
  rintro rfl
  rw [hd] at hc
  exact Bool.false_ne_true hc

theorem word?_digit {c : Char} (hc : isDigit c = true) (cs : List Char) :
    word? (c :: cs) = none := by
  rw [word?, Option.map_eq_none_iff, List.find?_eq_none]
  simp [words, ne_of_isDigit hc (d := 'n') (by decide), ne_of_isDigit hc (d := 't') (by decide),
    ne_of_isDigit hc (d := 'f') (by decide), ne_of_isDigit hc (d := 'N') (by decide),
    ne_of_isDigit hc (d := 'I') (by decide), ne_of_isDigit hc (d := '-') (by decide)]

theorem word?_minus {c : Char} (hc : isDigit c = true) (cs : List Char) :
    word? ('-' :: c :: cs) = none := by
  rw [word?, Option.map_eq_none_iff, List.find?_eq_none]
  simp [words, ne_of_isDigit hc (d := 'I') (by decide)]

theorem literal_int {i : Int} (hi : IsShort i) {rest : List Char}
    (hrest : Delimits continuesNumber rest) :
    literal (intChars i ++ rest) = .ok (int i, rest) := by
  obtain ⟨d, ds, hd, hrepr, heq⟩ := intChars_eq i
  have hnumber := fun negative => number_repr negative (length_repr_of_isShort hi) hrest
  rw [hrepr, List.cons_append] at hnumber
  rw [heq]
  split
  · next hneg =>
    have habs : -(i.natAbs : Int) = i := by omega
    rw [List.cons_append, List.cons_append]
    unfold literal
    simp only [word?_minus hd, hnumber true, if_true, habs]
  · next hneg =>
    have habs : (i.natAbs : Int) = i := by omega
    have hminus : d ≠ '-' := fun h => ne_of_isDigit hd (by decide) h.symm
    have hliteral := hnumber false
    rw [List.cons_append]
    unfold literal
    -- the branch on the sign is opened, what reads the digits stays closed
    generalize number = f at hliteral ⊢
    simp only [word?_digit hd]
    simp [hminus, hliteral, habs]

/-! ## Values -/

/-- The value is read from what is written for it, given any rest. -/
def Reads (sep : Separators) (v : Json) : Prop :=
  ∀ fuel rest, 2 * (chars sep v).length ≤ fuel + 1 → Delimits continuesNumber rest →
    value fuel (chars sep v ++ rest) = .ok (v, rest)

theorem reads_of_literal {sep : Separators} {v : Json} {c : Char} {cs : List Char}
    (heq : chars sep v = c :: cs) (hquote : c ≠ '"') (hlist : c ≠ '[') (hobject : c ≠ '\x7b')
    (h : ∀ rest, Delimits continuesNumber rest → literal (chars sep v ++ rest) = .ok (v, rest)) :
    v.Reads sep := by
  intro fuel rest hfuel hrest
  have hliteral := h rest hrest
  rw [heq] at hfuel hliteral ⊢
  rw [List.length_cons] at hfuel
  obtain ⟨fuel, rfl⟩ : ∃ n, fuel = n + 1 := ⟨fuel - 1, by omega⟩
  rw [List.cons_append, value_literal hquote hlist hobject]
  exact hliteral

theorem delimits_mark {c : Char} (hc : c ∈ [',', ']', '\x7d']) (rest : List Char) :
    Delimits continuesNumber (c :: rest) := by
  have hmarks : ∀ d ∈ [',', ']', '\x7d'], continuesNumber d = false :=
    Text.forall_mem_of_all (by decide)
  exact delimits_cons (hmarks c hc) rest

/-- The separators that have this behind the comma and that behind the colon. -/
def padded (as bs : List Char) : Separators := ⟨',' :: as, ':' :: bs⟩

variable {as bs : List Char}

theorem itemChars_cons_cons (x y : Json) (xs : List Json) :
    itemChars (padded as bs) (x :: y :: xs) =
      chars (padded as bs) x ++ ',' :: (as ++ itemChars (padded as bs) (y :: xs)) := by
  rw [itemChars, List.append_assoc]
  rfl

theorem fieldChars_singleton (k : String) (v : Json) :
    fieldChars (padded as bs) [(k, v)] =
      '"' :: (k.toList.flatMap escaped ++ '"' :: ':' :: (bs ++ chars (padded as bs) v)) := by
  rw [fieldChars]
  simp [textChars, padded]

theorem fieldChars_cons_cons (k : String) (v : Json) (f : String × Json)
    (fs : List (String × Json)) :
    fieldChars (padded as bs) ((k, v) :: f :: fs) =
      '"' :: (k.toList.flatMap escaped ++ '"' :: ':' ::
        (bs ++ chars (padded as bs) v ++ ',' :: (as ++ fieldChars (padded as bs) (f :: fs)))) := by
  rw [fieldChars]
  simp [textChars, padded]

theorem skip_itemChars {x : Json} (hx : x.Plain) (xs : List Json) (rest : List Char) :
    skip (itemChars (padded as bs) (x :: xs) ++ rest) =
      itemChars (padded as bs) (x :: xs) ++ rest := by
  cases xs with
  | nil => rw [itemChars, skip_chars hx]
  | cons y xs => rw [itemChars_cons_cons, List.append_assoc, skip_chars hx]

theorem skip_fieldChars (f : String × Json) (fs : List (String × Json)) (rest : List Char) :
    skip (fieldChars (padded as bs) (f :: fs) ++ rest) =
      fieldChars (padded as bs) (f :: fs) ++ rest := by
  cases fs with
  | nil => rw [fieldChars_singleton, List.cons_append, skip_cons (by decide)]
  | cons g fs => rw [fieldChars_cons_cons, List.cons_append, skip_cons (by decide)]

theorem length_chars_pos (sep : Separators) {v : Json} (hv : v.Plain) : 0 < (chars sep v).length := by
  obtain ⟨c, cs, heq, -⟩ := chars_eq_cons sep hv
  rw [heq]
  exact Nat.succ_pos _

theorem items_written (has : as.all isSpace = true) {x : Json} {xs : List Json}
    (hplain : ∀ y ∈ x :: xs, y.Plain) (hreads : ∀ y ∈ x :: xs, y.Reads (padded as bs)) {fuel : Nat}
    (hfuel : 2 * (itemChars (padded as bs) (x :: xs)).length ≤ fuel) (rest : List Char) :
    items fuel (itemChars (padded as bs) (x :: xs) ++ ']' :: rest) = .ok (x :: xs, rest) := by
  have hlength := length_chars_pos (padded as bs) (hplain x List.mem_cons_self)
  induction xs generalizing x fuel with
  | nil =>
    rw [itemChars] at hfuel ⊢
    obtain ⟨fuel, rfl⟩ : ∃ n, fuel = n + 1 := ⟨fuel - 1, by omega⟩
    have hx := hreads x List.mem_cons_self fuel (']' :: rest) (by omega)
      (delimits_mark (by decide) rest)
    rw [items, hx]
    rfl
  | cons y xs ih =>
    have hplain' : ∀ z ∈ y :: xs, z.Plain := fun z hz => hplain z (List.mem_cons_of_mem _ hz)
    have hreads' : ∀ z ∈ y :: xs, z.Reads (padded as bs) :=
      fun z hz => hreads z (List.mem_cons_of_mem _ hz)
    rw [itemChars_cons_cons] at hfuel ⊢
    rw [List.length_append, List.length_cons, List.length_append] at hfuel
    obtain ⟨fuel, rfl⟩ : ∃ n, fuel = n + 1 := ⟨fuel - 1, by omega⟩
    have hx := hreads x List.mem_cons_self fuel
      (',' :: (as ++ itemChars (padded as bs) (y :: xs) ++ ']' :: rest)) (by omega)
      (delimits_mark (by decide) _)
    have hxs : items fuel (itemChars (padded as bs) (y :: xs) ++ ']' :: rest) =
        .ok (y :: xs, rest) :=
      ih hplain' hreads' (by omega) (length_chars_pos _ (hplain' y List.mem_cons_self))
    rw [List.append_assoc, List.cons_append, items, hx]
    change (items fuel (skip (as ++ itemChars (padded as bs) (y :: xs) ++ ']' :: rest))).bind _ = _
    rw [List.append_assoc, skip_append has, skip_itemChars (hplain' y List.mem_cons_self), hxs]
    rfl

theorem put_of_not_mem {β : Type} {k : String} {v : β} {fs : Fields β}
    (h : k ∉ fs.map (·.1)) : Fields.put k v fs = fs ++ [(k, v)] := by
  induction fs with
  | nil => rfl
  | cons f fs ih =>
    rw [List.map_cons, List.mem_cons, not_or] at h
    rw [Fields.put, if_neg fun heq => h.1 heq.symm, ih h.2, List.cons_append]

theorem not_mem_known {k : String} {v : Json} {known fs : List (String × Json)}
    (h : ((known ++ (k, v) :: fs).map (·.1)).Nodup) : k ∉ known.map (·.1) := by
  rw [List.map_append, List.nodup_append] at h
  exact fun hk => h.2.2 k hk k List.mem_cons_self rfl

/-- How the field of a key and a value is read, the last one and one that is not. -/
theorem members_field (hbs : bs.all isSpace = true) {sep : Separators} {k : String} {v : Json}
    (hv : v.Plain) (hread : v.Reads sep) {fuel : Nat}
    (hfuel : 2 * (chars sep v).length ≤ fuel + 1) (known : List (String × Json))
    (tail : List Char) :
    members (fuel + 1) known
        ('"' :: (k.toList.flatMap escaped ++ '"' :: ':' :: (bs ++ chars sep v ++ '\x7d' :: tail))) =
      .ok (Fields.put k v known, tail) ∧
    members (fuel + 1) known
        ('"' :: (k.toList.flatMap escaped ++ '"' :: ':' :: (bs ++ chars sep v ++ ',' :: tail))) =
      members fuel (Fields.put k v known) (skip tail) := by
  have hvalue : ∀ c ∈ [',', ']', '\x7d'],
      value fuel (chars sep v ++ c :: tail) = .ok (v, c :: tail) :=
    fun c hc => hread fuel (c :: tail) hfuel (delimits_mark hc tail)
  constructor
  · rw [members, text_written]
    change (value fuel (skip (bs ++ chars sep v ++ '\x7d' :: tail))).bind _ = _
    rw [List.append_assoc, skip_append hbs, skip_chars hv, hvalue _ (by decide)]
    rfl
  · rw [members, text_written]
    change (value fuel (skip (bs ++ chars sep v ++ ',' :: tail))).bind _ = _
    rw [List.append_assoc, skip_append hbs, skip_chars hv, hvalue _ (by decide)]
    rfl

theorem members_written (has : as.all isSpace = true) (hbs : bs.all isSpace = true)
    {f : String × Json} {fs known : List (String × Json)} (hplain : ∀ g ∈ f :: fs, g.2.Plain)
    (hreads : ∀ g ∈ f :: fs, g.2.Reads (padded as bs))
    (hkeys : ((known ++ f :: fs).map (·.1)).Nodup) {fuel : Nat}
    (hfuel : 2 * (fieldChars (padded as bs) (f :: fs)).length ≤ fuel) (rest : List Char) :
    members fuel known (fieldChars (padded as bs) (f :: fs) ++ '\x7d' :: rest) =
      .ok (known ++ f :: fs, rest) := by
  induction fs generalizing f known fuel with
  | nil =>
    obtain ⟨k, v⟩ := f
    have hv : v.Plain := hplain (k, v) List.mem_cons_self
    have hread : v.Reads (padded as bs) := hreads (k, v) List.mem_cons_self
    have hnew := not_mem_known hkeys
    rw [fieldChars_singleton] at hfuel ⊢
    simp only [List.length_cons, List.length_append] at hfuel
    obtain ⟨fuel, rfl⟩ : ∃ n, fuel = n + 1 := ⟨fuel - 1, by omega⟩
    rw [List.cons_append, List.append_assoc, List.cons_append, List.cons_append,
      (members_field hbs hv hread (by omega) known rest).1, put_of_not_mem hnew]
  | cons g fs ih =>
    obtain ⟨k, v⟩ := f
    have hv : v.Plain := hplain (k, v) List.mem_cons_self
    have hread : v.Reads (padded as bs) := hreads (k, v) List.mem_cons_self
    have hnew := not_mem_known hkeys
    have hplain' : ∀ h ∈ g :: fs, h.2.Plain := fun h hh => hplain h (List.mem_cons_of_mem _ hh)
    have hreads' : ∀ h ∈ g :: fs, h.2.Reads (padded as bs) :=
      fun h hh => hreads h (List.mem_cons_of_mem _ hh)
    have hkeys' : ((known ++ [(k, v)] ++ g :: fs).map (·.1)).Nodup := by
      rw [List.append_assoc]
      exact hkeys
    rw [fieldChars_cons_cons] at hfuel ⊢
    simp only [List.length_cons, List.length_append] at hfuel
    obtain ⟨fuel, rfl⟩ : ∃ n, fuel = n + 1 := ⟨fuel - 1, by omega⟩
    have hmore : members fuel (known ++ [(k, v)])
        (fieldChars (padded as bs) (g :: fs) ++ '\x7d' :: rest) =
          .ok (known ++ [(k, v)] ++ g :: fs, rest) := ih hplain' hreads' hkeys' (by omega)
    rw [List.cons_append, List.append_assoc, List.cons_append, List.cons_append, List.append_assoc,
      List.cons_append, (members_field hbs hv hread (by omega) known _).2, put_of_not_mem hnew,
      List.append_assoc as, skip_append has, skip_fieldChars, hmore, List.append_assoc]
    rfl

theorem reads_bool (sep : Separators) (b : Bool) : (bool b).Reads sep := by
  cases b with
  | false => exact reads_of_literal rfl (by decide) (by decide) (by decide) fun _ _ => rfl
  | true => exact reads_of_literal rfl (by decide) (by decide) (by decide) fun _ _ => rfl

theorem reads_int (sep : Separators) {i : Int} (hi : IsShort i) : (int i).Reads sep := by
  obtain ⟨d, ds, hd, -, heq⟩ := intChars_eq i
  have hliteral : ∀ rest, Delimits continuesNumber rest →
      literal (chars sep (int i) ++ rest) = .ok (int i, rest) := fun _ => literal_int hi
  split at heq
  · exact reads_of_literal heq (by decide) (by decide) (by decide) hliteral
  · exact reads_of_literal heq (ne_of_isDigit hd (by decide)).symm
      (ne_of_isDigit hd (by decide)).symm (ne_of_isDigit hd (by decide)).symm hliteral

theorem reads_str (sep : Separators) (s : String) : (str s).Reads sep := by
  intro fuel rest hfuel _
  have heq : chars sep (str s) ++ rest = '"' :: (s.toList.flatMap escaped ++ '"' :: rest) := by
    simp [chars, scalar, textChars]
  have hlength : 0 < (chars sep (str s)).length := length_chars_pos sep (.str s)
  obtain ⟨fuel, rfl⟩ : ∃ n, fuel = n + 1 := ⟨fuel - 1, by omega⟩
  rw [heq, value, text_written]
  rfl

theorem value_list {c : Char} (hspace : isSpace c = false) (hclose : c ≠ ']') (fuel : Nat)
    (cs : List Char) :
    value (fuel + 1) ('[' :: c :: cs) = (items fuel (c :: cs)).map fun r => (arr r.1, r.2) := by
  rw [value, skip_cons hspace]
  split
  · next heq =>
    cases heq
    exact absurd rfl hclose
  · rfl

theorem reads_arr (has : as.all isSpace = true) {xs : List Json} (hplain : ∀ x ∈ xs, x.Plain)
    (hreads : ∀ x ∈ xs, x.Reads (padded as bs)) : (arr xs).Reads (padded as bs) := by
  intro fuel rest hfuel _
  rw [chars, List.length_append, List.length_cons, List.length_singleton] at hfuel
  obtain ⟨fuel, rfl⟩ : ∃ n, fuel = n + 1 := ⟨fuel - 1, by omega⟩
  cases xs with
  | nil => rfl
  | cons x xs =>
    obtain ⟨c, cs, hopens, hc⟩ := chars_eq_cons (padded as bs) (hplain x List.mem_cons_self)
    obtain ⟨ds, heq⟩ : ∃ ds, itemChars (padded as bs) (x :: xs) ++ ']' :: rest = c :: ds := by
      cases xs with
      | nil => exact ⟨_, by rw [itemChars, hopens, List.cons_append]⟩
      | cons y xs =>
        exact ⟨_, by rw [itemChars_cons_cons, hopens, List.cons_append, List.cons_append]⟩
    have hitems : items fuel (itemChars (padded as bs) (x :: xs) ++ ']' :: rest) =
        .ok (x :: xs, rest) := items_written has hplain hreads (by omega) rest
    rw [chars, List.append_assoc, List.cons_append, List.singleton_append]
    rw [heq] at hitems ⊢
    rw [value_list (isSpace_of_opensValue hc) (ne_of_opensValue hc (by decide)), hitems]
    rfl

theorem reads_obj (has : as.all isSpace = true) (hbs : bs.all isSpace = true)
    {fs : List (String × Json)} (hkeys : (fs.map (·.1)).Nodup) (hplain : ∀ f ∈ fs, f.2.Plain)
    (hreads : ∀ f ∈ fs, f.2.Reads (padded as bs)) : (obj fs).Reads (padded as bs) := by
  intro fuel rest hfuel _
  rw [chars, List.length_append, List.length_cons, List.length_singleton] at hfuel
  obtain ⟨fuel, rfl⟩ : ∃ n, fuel = n + 1 := ⟨fuel - 1, by omega⟩
  cases fs with
  | nil => rfl
  | cons f fs =>
    obtain ⟨ds, heq⟩ : ∃ ds, fieldChars (padded as bs) (f :: fs) ++ '\x7d' :: rest = '"' :: ds := by
      cases fs with
      | nil => exact ⟨_, by rw [fieldChars_singleton, List.cons_append]⟩
      | cons g fs => exact ⟨_, by rw [fieldChars_cons_cons, List.cons_append]⟩
    have hmembers : members fuel [] (fieldChars (padded as bs) (f :: fs) ++ '\x7d' :: rest) =
        .ok (f :: fs, rest) := members_written has hbs hplain hreads hkeys (by omega) rest
    rw [chars, List.append_assoc, List.cons_append, List.singleton_append]
    rw [heq] at hmembers ⊢
    have hvalue : value (fuel + 1) ('\x7b' :: '"' :: ds) =
        (members fuel [] ('"' :: ds)).map fun r => (obj r.1, r.2) := rfl
    rw [hvalue, hmembers]
    rfl

/-- A value is read from what is written for it if its integers are short enough. -/
theorem reads (has : as.all isSpace = true) (hbs : bs.all isSpace = true) {v : Json} (hv : v.Plain)
    (hshort : ∀ i ∈ v.integers, IsShort i) : v.Reads (padded as bs) := by
  induction hv with
  | null => exact reads_of_literal rfl (by decide) (by decide) (by decide) fun _ _ => rfl
  | bool b => exact reads_bool _ b
  | int i => exact reads_int _ (hshort i List.mem_cons_self)
  | str s => exact reads_str _ s
  | arr hplain ih =>
    refine reads_arr has hplain fun x hx => ih x hx fun i hi => hshort i ?_
    exact mem_itemIntegers.2 ⟨x, hx, hi⟩
  | obj hkeys hplain ih =>
    refine reads_obj has hbs hkeys hplain fun f hf => ih f hf fun i hi => hshort i ?_
    exact mem_fieldIntegers.2 ⟨f, hf, hi⟩

/-- Reading a plain value that was written on one line gives the value back, also when white
space follows. -/
theorem read_written (has : as.all isSpace = true) (hbs : bs.all isSpace = true) {v : Json}
    (hv : v.Plain) (hshort : ∀ i ∈ v.integers, IsShort i) {tail : List Char}
    (htail : tail.all isSpace = true) :
    read (String.ofList (chars (padded as bs) v ++ tail)) = .ok v := by
  obtain ⟨c, cs, heq, hc⟩ := chars_eq_cons (padded as bs) hv
  have hmark : (chars (padded as bs) v ++ tail).head? ≠ some '\ufeff' := by
    rw [heq, List.cons_append, List.head?_cons, Ne, Option.some.injEq]
    exact ne_of_opensValue hc (by decide)
  have hdelimits : Delimits continuesNumber tail := by
    rintro d ds rfl
    rw [List.all_cons, Bool.and_eq_true] at htail
    exact continuesNumber_of_isSpace htail.1
  have hrest : skip tail = [] := by
    rw [← List.append_nil tail, skip_append htail]
    rfl
  have hvalue := reads has hbs hv hshort (2 * (chars (padded as bs) v ++ tail).length + 2) tail
    (by rw [List.length_append]; omega) hdelimits
  rw [read, String.toList_ofList, readChars, if_neg hmark, skip_chars hv]
  simp only [hvalue, bind, Except.bind, hrest]
  rfl

/-- Reading a plain value that was written on one line gives the value back. -/
theorem read_write {v : Json} (hv : v.Plain) (hshort : ∀ i ∈ v.integers, IsShort i) :
    read (v.write tight) = .ok v := by
  have hread : read (String.ofList (chars (padded [] []) v ++ [])) = .ok v :=
    read_written rfl rfl hv hshort rfl
  rwa [List.append_nil] at hread

end Json
end FormulaMap

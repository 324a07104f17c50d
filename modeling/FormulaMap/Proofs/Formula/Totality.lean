/-
Reading never gives up.

The only way in which the reader can fail is a token whose text makes no node.  The lexer
makes no such token: a number starts with a digit, and a mixed number is joined from
three of them (`usable_of_spelt`).  The reader takes its tokens from the front, so an
induction on the tokens shows that every one of its functions succeeds wherever it starts
(`readable`), and that no node it makes has an empty text (`presentTexts_closed`).

A formula is therefore annotated exactly when an expression was read from it, and the
outcome says so: `unbroken_and_decided` is about every formula there is.
-/
import FormulaMap.Proofs.Formula.Addresses
import FormulaMap.Proofs.Formula.Instrumenting

namespace FormulaMap
namespace Parser

open Token

/-- A node can be made of the token, if nodes are made of tokens of its kind. -/
structure Usable (t : Token) : Prop where
  number : t.kind = .number → t.text ≠ ""
  mixed : t.kind = .mixed → ∃ w n d, mixedParts t.text = .ok (w, n, d) ∧ w ≠ "" ∧ n ≠ "" ∧ d ≠ ""

theorem usable_of_spelt {t : Token} (h : Spelt t) : Usable t where
  number := fun hk => (Expr.startsWithDigit_of_isRun (h.number hk)).ne_empty
  mixed := fun hk => by
    obtain ⟨w, n, d, hw, hn, hd, hparts⟩ := h.mixed hk
    exact ⟨w, n, d, hparts, (Expr.startsWithDigit_of_isRun hw).ne_empty,
      (Expr.startsWithDigit_of_isRun hn).ne_empty, (Expr.startsWithDigit_of_isRun hd).ne_empty⟩

theorem Usable.numeral_eq {t : Token} (h : Usable t) (hk : t.kind = .number) :
    numeral t.text = .ok (.numeral t.text none) :=
  numeral_of_ne (h.number hk)

theorem Usable.mixedToken_eq {t : Token} (h : Usable t) (hk : t.kind = .mixed) :
    ∃ w n d, (w ≠ "" ∧ n ≠ "" ∧ d ≠ "") ∧ mixedToken t.text = .ok (.mixed w n d none) := by
  obtain ⟨w, n, d, hparts, hw, hn, hd⟩ := h.mixed hk
  refine ⟨w, n, d, ⟨hw, hn, hd⟩, ?_⟩
  rw [mixedToken, hparts]
  exact mixedNumber_of_ne hw hn hd

theorem bareInteger?_ne_empty {n : Option Expr} {a : String} (h : bareInteger? n = some a) :
    a ≠ "" := by
  unfold bareInteger? at h
  split at h
  · dsimp only at h
    rw [Option.ite_none_right_eq_some] at h
    obtain ⟨hdigits, heq⟩ := h
    cases heq
    rintro rfl
    exact absurd hdigits (by decide)
  · cases h

/-! ## Every phrase can be read -/

/-- Reading the phrase at the front of the tokens comes to an end. -/
def Readable (count : Nat) (p : Phrase) (ts : List Token) : Prop :=
  ∃ n rest ws, Reads count p ts n rest ws

/-- Every phrase can be read wherever the reader may come to. -/
def ReadableFrom (count : Nat) (ts : List Token) : Prop :=
  ∀ p rest, rest <:+ ts → Readable count p rest

section
variable {count : Nat} {t : Token} {ts : List Token}

theorem exists_closes (count : Nat) (kind : TokenKind) (bracket : String) (ts : List Token) :
    ∃ rest ws, Closes count kind bracket ts rest ws := by
  cases ts with
  | nil => exact ⟨[], _, .missing (by simp)⟩
  | cons t ts =>
    by_cases hk : t.kind = kind
    · exact ⟨ts, [], .found hk⟩
    · refine ⟨t :: ts, _, .missing ?_⟩
      rintro u more heq
      cases heq
      exact hk

theorem readable_chain {additive : Bool} (hfirst : Readable count (.operand additive) ts)
    (htail : ∀ left rest, rest <:+ ts → Readable count (.tail additive left) rest) :
    Readable count (.chain additive) ts := by
  obtain ⟨left, rest, ws, hleft⟩ := hfirst
  obtain ⟨n, rest', ws', hmore⟩ := htail left rest hleft.suffix
  exact ⟨n, rest', ws ++ ws', .chain hleft hmore⟩

theorem readable_tail (hshorter : ReadableFrom count ts) (additive : Bool) (left : Option Expr) :
    Readable count (.tail additive left) (t :: ts) := by
  cases hop : leading? additive (t :: ts) with
  | none => exact ⟨left, t :: ts, [], .stop hop⟩
  | some op =>
    obtain ⟨right, rest, ws, hright⟩ := hshorter (.operand additive) ts (List.suffix_refl ts)
    cases hjoin : join op left right with
    | none => exact ⟨none, rest, ws, .fail hop hright hjoin⟩
    | some e =>
      obtain ⟨l, r, rfl, rfl, -⟩ := join_eq_some hjoin
      obtain ⟨n, rest', ws', hmore⟩ :=
        hshorter (.tail additive (some (.binary op l r none))) rest hright.suffix
      exact ⟨n, rest', ws ++ ws', .more hop hright hmore⟩

/-- A number before a fraction reads the fraction, whether or not it then gives it back. -/
theorem readable_number (ht : Usable t) (hk : t.kind = .number)
    (hshorter : ReadableFrom count ts) : Readable count .primary (t :: ts) := by
  have hnumeral := ht.numeral_eq hk
  cases ts with
  | nil => exact ⟨_, [], [], .numeral hk hnumeral (by simp)⟩
  | cons u us =>
    by_cases hu : u.kind = .fraction
    · obtain ⟨n, rest, ws, hn⟩ := hshorter .group us (List.suffix_cons u us)
      obtain ⟨d, rest', ws', hd⟩ :=
        hshorter .group rest (hn.suffix.trans (List.suffix_cons u us))
      cases ha : bareInteger? n with
      | none => exact ⟨_, u :: us, _, .givenBack hk hu hn hd (Or.inl ha) hnumeral⟩
      | some a =>
        cases hb : bareInteger? d with
        | none => exact ⟨_, u :: us, _, .givenBack hk hu hn hd (Or.inr hb) hnumeral⟩
        | some b =>
          have hmixed := mixedNumber_of_ne (ht.number hk) (bareInteger?_ne_empty ha)
            (bareInteger?_ne_empty hb)
          exact ⟨_, rest', _, .mixed hk hu hn hd ha hb hmixed⟩
    · refine ⟨_, u :: us, [], .numeral hk hnumeral ?_⟩
      rintro v more heq
      cases heq
      exact hu

theorem readable_nothing
    (h : t.kind ≠ .mixed ∧ t.kind ≠ .number ∧ t.kind ≠ .openParen ∧ t.kind ≠ .fraction ∧
      (t.kind = .operator → isMinusGlyph t.text = false)) :
    Readable count .primary (t :: ts) := by
  refine ⟨none, t :: ts, [], .nothing ?_⟩
  rintro u more heq
  cases heq
  exact h

theorem readable_primary (ht : Usable t) (hshorter : ReadableFrom count ts) :
    Readable count .primary (t :: ts) := by
  cases hk : t.kind with
  | mixed =>
    obtain ⟨w, n, d, -, hmade⟩ := ht.mixedToken_eq hk
    exact ⟨_, ts, [], .mixedToken hk hmade⟩
  | number => exact readable_number ht hk hshorter
  | openParen =>
    obtain ⟨n, rest, ws, hn⟩ := hshorter (.chain true) ts (List.suffix_refl ts)
    obtain ⟨rest', ws', hclose⟩ := exists_closes count .closeParen ")" rest
    exact ⟨n, rest', _, .bracketed hk hn hclose⟩
  | operator =>
    cases hminus : isMinusGlyph t.text with
    | true =>
      obtain ⟨n, rest, ws, hn⟩ := hshorter .primary ts (List.suffix_refl ts)
      exact ⟨n.map negate, rest, ws, .signed hk hminus hn⟩
    | false => exact readable_nothing (by simp [hk, hminus])
  | fraction =>
    obtain ⟨n, rest, ws, hn⟩ := hshorter .group ts (List.suffix_refl ts)
    obtain ⟨d, rest', ws', hd⟩ := hshorter .group rest hn.suffix
    exact ⟨pair n d, rest', ws ++ ws', .fraction hk hn hd⟩
  | closeParen => exact readable_nothing (by simp [hk])
  | openBrace => exact readable_nothing (by simp [hk])
  | closeBrace => exact readable_nothing (by simp [hk])
  | space => exact readable_nothing (by simp [hk])

theorem readable_group (hprimary : Readable count .primary (t :: ts))
    (hshorter : ReadableFrom count ts) : Readable count .group (t :: ts) := by
  by_cases hk : t.kind = .openBrace
  · obtain ⟨n, rest, ws, hn⟩ := hshorter (.chain true) ts (List.suffix_refl ts)
    obtain ⟨rest', ws', hclose⟩ := exists_closes count .closeBrace "\x7d" rest
    exact ⟨n, rest', _, .braced hk hn hclose⟩
  · obtain ⟨n, rest, ws, hn⟩ := hprimary
    refine ⟨n, rest, ws, .unbraced ?_ hn⟩
    rintro u more heq
    cases heq
    exact hk

/-- A chain is read from a primary and tails. -/
theorem readable_of_primary (hprimary : Readable count .primary ts)
    (hgroup : Readable count .group ts)
    (htail : ∀ additive left rest, rest <:+ ts → Readable count (.tail additive left) rest)
    (p : Phrase) : Readable count p ts := by
  have hproduct : Readable count (.chain false) ts := readable_chain hprimary (htail false)
  cases p with
  | primary => exact hprimary
  | group => exact hgroup
  | chain additive =>
    cases additive with
    | false => exact hproduct
    | true => exact readable_chain hproduct (htail true)
  | tail additive left => exact htail additive left ts (List.suffix_refl ts)

/-- Every phrase can be read at every place of tokens that can be used. -/
theorem readable (count : Nat) (hts : ∀ t ∈ ts, Usable t) : ReadableFrom count ts := by
  induction ts with
  | nil =>
    intro p rest hrest
    rw [List.suffix_nil.1 hrest]
    have hprimary : Readable count .primary [] := ⟨none, [], [], .nothing (by simp)⟩
    refine readable_of_primary hprimary ?_ ?_ p
    · obtain ⟨n, rest', ws, hn⟩ := hprimary
      exact ⟨n, rest', ws, .unbraced (by simp) hn⟩
    · intro additive left rest' hrest'
      rw [List.suffix_nil.1 hrest']
      exact ⟨left, [], [], .stop rfl⟩
  | cons t ts ih =>
    have hshorter : ReadableFrom count ts := ih fun u hu => hts u (List.mem_cons_of_mem t hu)
    intro p rest hrest
    rcases List.suffix_cons_iff.1 hrest with rfl | hrest
    · have hprimary := readable_primary (hts t List.mem_cons_self) hshorter
      refine readable_of_primary hprimary (readable_group hprimary hshorter) ?_ p
      intro additive left rest' hrest'
      rcases List.suffix_cons_iff.1 hrest' with rfl | hrest'
      · exact readable_tail hshorter additive left
      · exact hshorter _ rest' hrest'
    · exact hshorter p rest hrest

end

/-! ## No node has an empty text -/

theorem presentTexts_closed : Closed Usable fun e => e.textsPresent = true where
  numeral := by
    intro t ht hk
    simpa [Expr.textsPresent] using ht.number hk
  mixedToken := by
    intro t e ht hk he
    obtain ⟨w, n, d, ⟨hw, hn, hd⟩, hmade⟩ := ht.mixedToken_eq hk
    cases hmade.symm.trans he
    simp [Expr.textsPresent, hw, hn, hd]
  mixed := by
    intro t n d a b ht hk _ _ ha hb
    simp [Expr.textsPresent, ht.number hk, bareInteger?_ne_empty ha, bareInteger?_ne_empty hb]
  binary := by
    intro op l r hl hr
    rw [Expr.textsPresent, hl, hr]
    rfl
  negate := fun _ h => textsPresent_negate h
  fraction := by
    intro n d hn hd
    rw [Expr.textsPresent, hn, hd]
    rfl

end Parser

/-! ## Remarks -/

/-- The first letter tells the remark that reading was broken off from the others. -/
theorem ParseWarning.head?_message (w : ParseWarning) :
    w.message.toList.head? = some 'p' ↔ ∃ f, w = .aborted f := by
  have hbracket : "expected '".toList.head? = some 'e' := by decide
  have hmixed : "fraction after ".toList.head? = some 'f' := by decide
  have htrailing : "unparsed trailing tokens from index ".toList.head? = some 'u' := by decide
  have hnothing : "could not parse expression".toList.head? = some 'c' := by decide
  have haborted : "parse failed: ".toList.head? = some 'p' := by decide
  have hhead : ∀ {s : String} {c : Char}, s.toList.head? = some c → ∀ t : String,
      (s ++ t).toList.head? = some c := by
    intro s c hs t
    rw [String.toList_append, List.head?_append, hs]
    rfl
  unfold message
  cases w with
  | missingBracket b i =>
    rw [hhead (hhead (hhead hbracket b) _) _]
    simp
  | notMixed w =>
    rw [hhead (hhead hmixed w) _]
    simp
  | trailing i =>
    rw [hhead htrailing _]
    simp
  | noExpression =>
    rw [hnothing]
    simp
  | aborted f =>
    rw [hhead haborted _]
    simp

theorem ParseWarning.eq_aborted_of_startsWith {w : ParseWarning}
    (h : w.message.startsWith "parse failed:" = true) : ∃ f, w = .aborted f := by
  obtain ⟨cs, hcs⟩ := String.startsWith_string_iff.1 h
  have hhead : "parse failed:".toList.head? = some 'p' := by decide
  rw [← w.head?_message, ← hcs, List.head?_append, hhead]
  rfl

namespace Parsed

open FormulaMap.Parser Token

variable {ts : List Token}

/-- Tokens that can be used are read to an end. -/
theorem exists_ofStep (hts : ∀ t ∈ ts, Usable t) :
    ∃ step : Step ts, ofTokens ts = ofStep ts.length step ∧
      Reads ts.length (.chain true) ts step.node step.rest step.warnings := by
  obtain ⟨n, rest, ws, hreads⟩ := readable ts.length hts (.chain true) ts (List.suffix_refl ts)
  obtain ⟨step, hstep, rfl, rfl, rfl⟩ := reads_iff.1 hreads
  refine ⟨step, ?_, hreads⟩
  have hsum : sum ts.length ts = .ok step := hstep
  rw [ofTokens, hsum]

theorem aborted_not_mem (hts : ∀ t ∈ ts, Usable t) (f : NodeFault) :
    .aborted f ∉ (ofTokens ts).warnings := by
  obtain ⟨step, heq, hreads⟩ := exists_ofStep hts
  have hnot : .aborted f ∉ step.warnings :=
    fun hmem => Bool.false_ne_true (hreads.passing_of_mem _ hmem)
  rw [heq, ofStep]
  split
  · dsimp only
    split <;> simp [hnot]
  · dsimp only
    split <;> simp [hnot]

theorem warnings_ne_nil (hts : ∀ t ∈ ts, Usable t) (h : (ofTokens ts).expr = none) :
    (ofTokens ts).warnings ≠ [] := by
  obtain ⟨step, heq, -⟩ := exists_ofStep hts
  rw [heq] at h ⊢
  unfold ofStep at h ⊢
  split at h
  · cases h
  · dsimp only
    split
    · simp
    · next hne => simpa using hne

/-- What reading a formula promises, whatever its text is. -/
structure Unbroken (s : String) : Prop where
  /-- A mixed number has three parts. -/
  parts : ∀ t ∈ lex s.toList, t.kind = .mixed → ∃ w n d, mixedParts t.text = .ok (w, n, d)
  /-- No function of the reader fails, wherever in the tokens it starts, and none of the
  nodes that it makes has an empty text. -/
  steps : ∀ (p : Phrase) (rest : List Token), rest <:+ lex s.toList →
    ∃ step, p.read (lex s.toList).length rest = .ok step ∧
      (p.Starts (fun e => e.textsPresent = true) →
        ∀ e, step.node = some e → e.textsPresent = true)
  remarks : ∀ w ∈ (ofString s).warnings, w.message.startsWith "parse failed:" = false

theorem usable_of_mem_lex {cs : List Char} : ∀ t ∈ lex cs, Usable t :=
  fun t ht => usable_of_spelt (spelt_of_mem_lex t ht)

theorem unbroken (s : String) : Unbroken s where
  parts := by
    intro t ht hk
    obtain ⟨w, n, d, -, -, -, hparts⟩ := (spelt_of_mem_lex t ht).mixed hk
    exact ⟨w, n, d, hparts⟩
  steps := by
    intro p rest hrest
    obtain ⟨n, rest', ws, hreads⟩ :=
      readable (lex s.toList).length usable_of_mem_lex p rest hrest
    obtain ⟨step, hstep, rfl, -, -⟩ := reads_iff.1 hreads
    refine ⟨step, hstep, fun hstarts => hreads.closed presentTexts_closed ?_ hstarts⟩
    exact fun t ht => usable_of_mem_lex t (hrest.subset ht)
  remarks := by
    intro w hw
    rw [Bool.eq_false_iff]
    intro hstarts
    obtain ⟨f, rfl⟩ := ParseWarning.eq_aborted_of_startsWith hstarts
    exact aborted_not_mem usable_of_mem_lex f hw

end Parsed

namespace Expr

theorem slash_mem_render (note : List Char) (m : Markup) :
    '\\' ∈ (Markup.annotated note m).render := by
  have hcommand : '\\' ∈ Markup.command := by decide
  exact List.mem_append_left _ (List.mem_append_left _ hcommand)

/-- There is something to be seen in the annotated source of every expression. -/
theorem not_allBlank_annotated (e : Expr) : Text.allBlank e.annotated = false := by
  have hseen : ∃ c ∈ e.markup.render, Text.isBlank c = false := by
    cases e with
    | numeral t p => exact ⟨'\\', slash_mem_render _ _, by decide⟩
    | binary o l r p =>
      refine ⟨'\\', ?_, by decide⟩
      exact List.mem_append_right _
        (List.mem_append_right _ (List.mem_append_left _ (slash_mem_render _ _)))
    | negation a p => exact ⟨'-', List.mem_append_left _ (List.mem_singleton_self '-'), by decide⟩
    | fraction n d p => exact ⟨'\\', slash_mem_render _ _, by decide⟩
    | mixed w n d p => exact ⟨'\\', slash_mem_render _ _, by decide⟩
  obtain ⟨c, hc, hblank⟩ := hseen
  rw [Text.allBlank, annotated, String.toList_ofList, List.all_eq_false]
  exact ⟨c, hc, by rw [hblank]; exact Bool.false_ne_true⟩

end Expr

namespace Instrumented

open FormulaMap.Expr

variable {s : String}

theorem ofFormula_of_none (h : (Parsed.ofString s).expr = none) :
    ofFormula s = (none, failure Parsed.failed, (Parsed.ofString s).warnings) := by
  rw [ofFormula, h]

theorem ofFormula_of_some {e : Expr} (h : (Parsed.ofString s).expr = some e) :
    ofFormula s =
      (some e.assignPaths, ⟨true, e.assignPaths.annotated, none⟩,
        (Parsed.ofString s).warnings) := by
  rw [ofFormula, h]
  dsimp only
  rw [ofExpr, not_allBlank_annotated, if_neg Bool.false_ne_true]

/-- What annotating a formula promises, whatever its text is. -/
structure Decided (s : String) : Prop where
  /-- The outcome passes the check that is made on outcomes. -/
  consistent : (ofFormula s).2.1.objection? = none
  decided : (ofFormula s).2.1.success = true ↔ (Parsed.ofString s).expr.isSome = true
  remarks : (ofFormula s).2.2 = (Parsed.ofString s).warnings
  /-- A success has source and no reason, and every node of its expression has a path. -/
  succeeded : (ofFormula s).2.1.success = true →
    Text.allBlank (ofFormula s).2.1.source = false ∧ (ofFormula s).2.1.reason = none ∧
      ∃ e, (Parsed.ofString s).expr = some e ∧ (ofFormula s).1 = some e.assignPaths ∧
        e.assignPaths.Addressed
  /-- A failure has a reason, which is that no expression was read, and no source. -/
  failed : (ofFormula s).2.1.success = false →
    (ofFormula s).1 = none ∧ (ofFormula s).2.1.source = "" ∧
      (ofFormula s).2.1.reason = some Parsed.failed ∧ (ofFormula s).2.2 ≠ []
  /-- The source of an expression is never empty. -/
  written : (ofFormula s).2.1.reason ≠ some emptySource

theorem decided (s : String) : Decided s := by
  have hreason : Parsed.failed ≠ emptySource := by decide
  cases h : (Parsed.ofString s).expr with
  | none =>
    have hremarks := Parsed.warnings_ne_nil Parsed.usable_of_mem_lex h
    have heq := ofFormula_of_none h
    have hconsistent : (failure Parsed.failed).objection? = none := by decide
    constructor
    · rw [heq]
      exact hconsistent
    · rw [heq, h]
      exact ⟨fun hsuccess => absurd hsuccess Bool.false_ne_true, fun hsome => nomatch hsome⟩
    · rw [heq]
    · rw [heq]
      exact fun hsuccess => absurd hsuccess Bool.false_ne_true
    · rw [heq]
      exact fun _ => ⟨rfl, rfl, rfl, hremarks⟩
    · rw [heq]
      exact fun hempty => hreason (Option.some.inj hempty)
  | some e =>
    have hsource := not_allBlank_annotated e.assignPaths
    have heq := ofFormula_of_some h
    constructor
    · rw [heq, objection?, hsource]
      rfl
    · rw [heq, h]
      exact ⟨fun _ => rfl, fun _ => rfl⟩
    · rw [heq]
    · rw [heq]
      exact fun _ => ⟨hsource, rfl, e, h, rfl, e.addressed_assignPaths⟩
    · rw [heq]
      exact fun hfailure => absurd hfailure.symm Bool.false_ne_true
    · rw [heq]
      exact fun hempty => nomatch hempty

/-- Reading a formula never breaks off, and annotating it ends in a success with source
or in a failure with a reason. -/
theorem unbroken_and_decided (s : String) : Parsed.Unbroken s ∧ Decided s :=
  ⟨Parsed.unbroken s, decided s⟩

end Instrumented
end FormulaMap

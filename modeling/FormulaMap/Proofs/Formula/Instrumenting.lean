/-
Instrumenting a formula and reading it again.

What the reader makes of a formula is always spelled, folded and without paths
(`Made`), but a mixed number that was written with a space may have any numerals for
its parts, while the annotated source always spells a mixed number as a number before
a fraction.  `rereads_iff_asciiMixed` is the exact condition under which the two
agree: no token of the annotated source is a mixed number, so whatever is read from it
has parts of ASCII digits.
-/
import FormulaMap.Formula.Instrumented
import FormulaMap.Proofs.Formula.Rereading

namespace FormulaMap

/-! ## What the reader makes -/

namespace Expr

open FormulaMap.Parser Token

theorem isRun_of_isNumber {cs : List Char} (h : Text.isNumber cs = true) : isRun cs = true := by
  rw [Text.isNumber, Bool.and_eq_true, List.all_eq_true] at h
  cases cs with
  | nil => exact absurd h.1 (by decide)
  | cons c cs =>
    rw [isRun, Bool.and_eq_true, List.all_eq_true]
    refine ⟨Text.isDigit_of_isAsciiDigit (h.2 c List.mem_cons_self), ?_⟩
    intro d hd
    rw [isNumeralChar, Text.isDigit_of_isAsciiDigit (h.2 d (List.mem_cons_of_mem c hd)), Bool.true_or]

/-- A line feed after the digits is ignored, but a numeral has none. -/
theorem isNumber_of_bareInteger? {e : Expr} {a : String} (hs : e.spelled = true)
    (h : bareInteger? (some e) = some a) : Text.isNumber a.toList = true := by
  unfold bareInteger? at h
  split at h
  · next t p heq =>
    cases heq
    have hlast : t.toList.getLast? ≠ some '\n' := by
      intro hlast
      rcases mem_isSignedRun hs _ (List.mem_of_getLast? hlast) with hc | hc
      · exact absurd hc (by decide)
      · exact absurd hc (by decide)
    dsimp only at h
    rw [if_neg hlast] at h
    split at h
    · next hnum => rwa [← Option.some.inj h]
    · cases h
  · cases h

/-- What is known of an expression that was read; `strict` when no token was a mixed
number. -/
structure Made (strict : Prop) (e : Expr) : Prop where
  spelled : e.spelled = true
  signsFolded : e.signsFolded = true
  bare : e.bare = e
  asciiMixed : strict → e.asciiMixed = true

theorem Made.negate {strict : Prop} {e : Expr} (h : Made strict e) : Made strict (negate e) := by
  cases hu : e.isUnsigned with
  | false =>
    rw [negate_of_not_isUnsigned hu]
    refine ⟨h.spelled, ?_, congrArg (Expr.negation · none) h.bare, h.asciiMixed⟩
    rw [Expr.signsFolded, hu, h.signsFolded]
    rfl
  | true =>
    cases e with
    | numeral t p =>
      rw [isUnsigned, Bool.not_eq_true'] at hu
      rw [Parser.negate, hu, if_neg Bool.false_ne_true]
      refine ⟨?_, rfl, rfl, fun _ => rfl⟩
      rw [Expr.spelled, String.toList_append]
      exact isRun_of_isSignedRun h.spelled hu
    | binary o l r p => exact absurd hu Bool.false_ne_true
    | negation a p => exact absurd hu Bool.false_ne_true
    | fraction n d p => exact absurd hu Bool.false_ne_true
    | mixed w n d p => exact absurd hu Bool.false_ne_true

theorem made_closed (strict : Prop) :
    Closed (fun t => Spelt t ∧ (strict → t.kind ≠ .mixed)) (Made strict) where
  numeral := by
    rintro t ⟨ht, _⟩ hk
    exact ⟨isSignedRun_of_isRun (ht.number hk), rfl, rfl, fun _ => rfl⟩
  mixedToken := by
    rintro t e ⟨ht, hstrict⟩ hk he
    obtain ⟨w, n, d, hw, hn, hd, hparts⟩ := ht.mixed hk
    rw [mixedToken, hparts] at he
    rw [mixedNumber_eq_ok he]
    refine ⟨?_, rfl, rfl, fun hs => absurd hk (hstrict hs)⟩
    rw [Expr.spelled, hw, hn, hd]
    rfl
  mixed := by
    rintro t n d a b ⟨ht, _⟩ hk hn hd ha hb
    have hna := isNumber_of_bareInteger? hn.spelled ha
    have hnb := isNumber_of_bareInteger? hd.spelled hb
    refine ⟨?_, rfl, rfl, fun _ => ?_⟩
    · rw [Expr.spelled, ht.number hk, isRun_of_isNumber hna, isRun_of_isNumber hnb]
      rfl
    · rw [Expr.asciiMixed, hna, hnb]
      rfl
  binary := by
    intro op l r hl hr
    refine ⟨?_, ?_, ?_, fun hs => ?_⟩
    · rw [Expr.spelled, hl.spelled, hr.spelled]
      rfl
    · rw [Expr.signsFolded, hl.signsFolded, hr.signsFolded]
      rfl
    · rw [Expr.bare, hl.bare, hr.bare]
    · rw [Expr.asciiMixed, hl.asciiMixed hs, hr.asciiMixed hs]
      rfl
  negate := fun _ h => h.negate
  fraction := by
    intro n d hn hd
    refine ⟨?_, ?_, ?_, fun hs => ?_⟩
    · rw [Expr.spelled, hn.spelled, hd.spelled]
      rfl
    · rw [Expr.signsFolded, hn.signsFolded, hd.signsFolded]
      rfl
    · rw [Expr.bare, hn.bare, hd.bare]
    · rw [Expr.asciiMixed, hn.asciiMixed hs, hd.asciiMixed hs]
      rfl

theorem made_of_ofTokens {strict : Prop} {ts : List Token} {e : Expr}
    (hts : ∀ t ∈ ts, Spelt t ∧ (strict → t.kind ≠ .mixed))
    (h : (Parsed.ofTokens ts).expr = some e) : Made strict e := by
  rw [Parsed.ofTokens] at h
  split at h
  · next s hs =>
    have hreads : Reads ts.length (.chain true) ts s.node s.rest s.warnings :=
      described ts.length (.chain true) ts s hs
    have hnode : s.node = some e := by
      unfold Parsed.ofStep at h
      split at h
      · next heq => rw [heq]; exact h
      · cases h
    exact hreads.closed (made_closed strict) hts trivial e hnode
  · cases h

/-- The writer spells a mixed number as a number before a fraction. -/
theorem kind_ne_mixed_of_mem_tokens {e : Expr} : ∀ t ∈ e.tokens, t.kind ≠ .mixed := by
  have hwrap : ∀ (b : Bool) (ts : List Token), (∀ t ∈ ts, t.kind ≠ .mixed) →
      ∀ t ∈ wrapTokens b ts, t.kind ≠ .mixed := by
    intro b ts hts
    cases b with
    | false => exact hts
    | true => simpa [wrapTokens, or_imp, forall_and] using hts
  have hbrace : ∀ ts : List Token, (∀ t ∈ ts, t.kind ≠ .mixed) →
      ∀ t ∈ braceTokens ts, t.kind ≠ .mixed := by
    intro ts hts
    simpa [braceTokens, or_imp, forall_and] using hts
  induction e with
  | numeral t p =>
    rw [tokens, numeralTokens]
    split <;> simp
  | binary o l r p ihl ihr =>
    rw [tokens]
    have hl := hwrap (leftNeedsParens o l) _ ihl
    have hr := hwrap (rightNeedsParens o r) _ ihr
    simpa [or_imp, forall_and] using ⟨hl, hr⟩
  | negation a p ih =>
    rw [tokens]
    have ha := hwrap (signNeedsParens a) _ ih
    simpa [or_imp, forall_and] using ha
  | fraction n d p ihn ihd =>
    rw [tokens]
    have hn := hbrace _ ihn
    have hd := hbrace _ ihd
    simpa [or_imp, forall_and] using ⟨hn, hd⟩
  | mixed w n d p => simp [tokens, braceTokens]

end Expr

namespace Instrumented

open Annotations FormulaMap.Expr Token

theorem success_iff {s : String} (h : (ofFormula s).2.1.success = true) :
    ∃ e, (Parsed.ofString s).expr = some e ∧ (ofFormula s).2.1.source = e.assignPaths.annotated := by
  unfold ofFormula at *
  dsimp only at *
  cases he : (Parsed.ofString s).expr with
  | none => rw [he] at h; exact absurd h Bool.false_ne_true
  | some e =>
    rw [he] at h
    refine ⟨e, rfl, ?_⟩
    dsimp only [ofExpr] at *
    split at h
    · exact absurd h Bool.false_ne_true
    · next hblank => rw [if_neg hblank]

/-- Annotating a formula, stripping the annotations and reading the rest gives the
expression of the formula exactly when the numerators and denominators of its mixed
numbers are written in ASCII digits. -/
theorem rereads_iff_asciiMixed {s : String} (h : (ofFormula s).2.1.success = true) :
    (Parsed.ofString (stripText (ofFormula s).2.1.source)).expr = (Parsed.ofString s).expr ↔
      ∃ e, (Parsed.ofString s).expr = some e ∧ e.asciiMixed = true := by
  obtain ⟨e, he, hsource⟩ := success_iff h
  have hmade : Made False e :=
    made_of_ofTokens (fun t ht => ⟨spelt_of_mem_lex t ht, False.elim⟩) he
  have hbare : e.assignPaths.bare = e := (bare_assignFrom e Path.root).trans hmade.bare
  have hspelled : e.assignPaths.spelled = true := by
    rw [← spelled_bare, hbare]
    exact hmade.spelled
  rw [hsource, he]
  constructor
  · intro hread
    refine ⟨e, rfl, ?_⟩
    -- no token of the written source is a mixed number
    rw [Parsed.ofString_content hspelled] at hread
    have hstrict : Made True e := by
      refine made_of_ofTokens (fun t ht => ⟨?_, fun _ => kind_ne_mixed_of_mem_tokens t ht⟩) hread
      rw [← lex_content hspelled] at ht
      exact spelt_of_mem_lex t ht
    exact hstrict.asciiMixed trivial
  · rintro ⟨e', heq, hascii⟩
    cases heq
    have hascii' : e.assignPaths.asciiMixed = true := by
      rw [← asciiMixed_bare, hbare]
      exact hascii
    have hfolded : e.assignPaths.signsFolded = true := by
      rw [← signsFolded_bare, hbare]
      exact hmade.signsFolded
    rw [Parsed.ofString_annotated hspelled hascii', bare_foldSigns_of_signsFolded hfolded, hbare]

/-- A mixed number written with a space is read back when its parts are ASCII digits. -/
theorem spaced_mixed_rereads :
    (ofFormula "1 2/3").2.1.success = true ∧
      (Parsed.ofString (stripText (ofFormula "1 2/3").2.1.source)).expr =
        (Parsed.ofString "1 2/3").expr :=
  ⟨by decide +kernel, (rereads_iff_asciiMixed (by decide +kernel)).2
    ⟨.mixed "1" "2" "3" none, by decide +kernel, by decide +kernel⟩⟩

/-- With a decimal numerator only the whole part is read back. -/
theorem not_forall_rereads :
    ¬ ∀ s, (ofFormula s).2.1.success = true →
      (Parsed.ofString (stripText (ofFormula s).2.1.source)).expr = (Parsed.ofString s).expr := by
  intro h
  exact absurd (h "1 2.5/3" (by decide +kernel)) (by decide +kernel)

end Instrumented
end FormulaMap

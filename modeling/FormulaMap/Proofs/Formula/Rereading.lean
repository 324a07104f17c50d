/-
Reading back what was written.

An expression is annotated, the annotations are stripped and the rest is read again.
`ofString_stripText_annotated` says that this gives the expression with its signs
folded, remarks nothing, and so gives the expression itself wherever no sign stands
before an unsigned numeral.  It needs the parts of mixed numbers to be ASCII digits:
those are what the reader takes for a mixed number in front of a fraction.

The tokens of an expression are derived in the grammar with the expression itself as
the tree.  Parentheses are left out in three places, each with a lemma of its own:
before a tighter left operand, before a strictly tighter right one, and after a sign
that could reach no further.
-/
import FormulaMap.Proofs.Formula.Spelling

namespace FormulaMap
namespace Expr

open FormulaMap.Parser Token

theorem startsWith_minus_iff {t : String} :
    t.startsWith "-" = true ↔ ∃ cs, t.toList = '-' :: cs := by
  rw [String.startsWith_string_iff]
  constructor
  · rintro ⟨cs, heq⟩
    exact ⟨cs, heq.symm⟩
  · rintro ⟨cs, heq⟩
    exact ⟨cs, heq.symm⟩

theorem startsWithDigit_of_isRun {s : String} (h : isRun s.toList = true) :
    StartsWithDigit s := by
  cases hs : s.toList with
  | nil => rw [hs] at h; exact absurd h (by decide)
  | cons c cs =>
    rw [hs, isRun, Bool.and_eq_true] at h
    exact ⟨c, cs, hs, h.1⟩

theorem not_startsWith_minus_of_isRun {s : String} (h : isRun s.toList = true) :
    s.startsWith "-" = false := by
  rw [Bool.eq_false_iff]
  intro hminus
  obtain ⟨cs, hs⟩ := startsWith_minus_iff.1 hminus
  rw [hs, isRun, Bool.and_eq_true] at h
  exact absurd h.1 (by decide)

theorem isSignedRun_of_isRun {cs : List Char} (h : isRun cs = true) : isSignedRun cs = true := by
  unfold isSignedRun
  split
  · rw [isRun, Bool.and_eq_true] at h
    exact absurd h.1 (by decide)
  · exact h

theorem isRun_of_isSignedRun {t : String} (h : isSignedRun t.toList = true)
    (hunsigned : t.startsWith "-" = false) : isRun t.toList = true := by
  unfold isSignedRun at h
  split at h
  · next cs heq =>
    rw [startsWith_minus_iff.2 ⟨cs, heq⟩] at hunsigned
    exact absurd hunsigned (by decide)
  · exact h

/-! ## The tokens derive the expression -/

/-- The phrase as which the tokens of an expression are derived. -/
def phrase : Expr → Phrase
  | binary o _ _ _ => .chain o.isAdditive
  | _ => .primary

theorem precedence_eq (o : BinaryOperation) :
    o.precedence = if o.isAdditive then 1 else 2 := by
  cases o <;> decide

theorem operation?_symbol (o : BinaryOperation) :
    leading? o.isAdditive [⟨.operator, o.symbol⟩] = some o := by
  cases o <;> decide

section
variable {e a : Expr} {o : BinaryOperation} {ts : List Token}

theorem derives_sum (h : Derives e.phrase ts a) : Derives (.chain true) ts a := by
  cases e with
  | binary o l r p =>
    rw [phrase] at h
    cases hadd : o.isAdditive with
    | true => rwa [hadd] at h
    | false =>
      rw [hadd] at h
      exact .operand h
  | numeral t p => exact h.chain_of_primary true
  | negation b p => exact h.chain_of_primary true
  | fraction n d p => exact h.chain_of_primary true
  | mixed w n d p => exact h.chain_of_primary true

theorem derives_wrapped (h : Derives e.phrase ts a) : Derives .primary (wrapTokens true ts) a :=
  .bracketed rfl (derives_sum h) rfl

/-- A left operand without parentheses binds at least as tightly as its operation. -/
theorem derives_left (h : Derives e.phrase ts a) :
    Derives (.chain o.isAdditive) (wrapTokens (leftNeedsParens o e) ts) a := by
  cases hneeds : leftNeedsParens o e with
  | true => exact (derives_wrapped h).chain_of_primary _
  | false =>
    show Derives (.chain o.isAdditive) ts a
    cases e with
    | binary o' l r p =>
      rw [leftNeedsParens, decide_eq_false_iff_not, precedence_eq, precedence_eq] at hneeds
      rw [phrase] at h
      cases hadd : o.isAdditive <;> cases hadd' : o'.isAdditive <;> rw [hadd'] at h
      · exact h
      · rw [hadd, hadd'] at hneeds
        exact absurd (by decide) hneeds
      · exact .operand h
      · exact h
    | numeral t p => exact h.chain_of_primary _
    | negation b p => exact h.chain_of_primary _
    | fraction n d p => exact h.chain_of_primary _
    | mixed w n d p => exact h.chain_of_primary _

/-- A right operand without parentheses binds more tightly than its operation. -/
theorem derives_right (h : Derives e.phrase ts a) :
    Derives (.operand o.isAdditive) (wrapTokens (rightNeedsParens o e) ts) a := by
  cases hneeds : rightNeedsParens o e with
  | true => exact (derives_wrapped h).operand_of_primary _
  | false =>
    show Derives (.operand o.isAdditive) ts a
    cases e with
    | binary o' l r p =>
      rw [rightNeedsParens, decide_eq_false_iff_not, precedence_eq, precedence_eq] at hneeds
      rw [phrase] at h
      cases hadd : o.isAdditive <;> cases hadd' : o'.isAdditive <;> rw [hadd, hadd'] at hneeds
      · exact absurd (by decide) hneeds
      · exact absurd (by decide) hneeds
      · rwa [hadd'] at h
      · exact absurd (by decide) hneeds
    | numeral t p => exact h.operand_of_primary _
    | negation b p => exact h.operand_of_primary _
    | fraction n d p => exact h.operand_of_primary _
    | mixed w n d p => exact h.operand_of_primary _

theorem derives_signed (h : Derives e.phrase ts a) :
    Derives .primary (wrapTokens (signNeedsParens e) ts) a := by
  cases hneeds : signNeedsParens e with
  | true => exact derives_wrapped h
  | false =>
    show Derives .primary ts a
    cases e with
    | numeral t p => exact h
    | fraction n d p => exact h
    | mixed w n d p => exact h
    | binary o l r p => exact absurd hneeds (by simp [signNeedsParens])
    | negation b p => exact absurd hneeds (by simp [signNeedsParens])

end

theorem derives_numeralTokens {t : String} (h : isSignedRun t.toList = true) :
    Derives .primary (numeralTokens t) (.numeral t none) := by
  unfold isSignedRun at h
  unfold numeralTokens
  split at h
  · next cs heq =>
    have hrun : isRun (String.ofList cs).toList = true := by rwa [String.toList_ofList]
    have ht : t = "-" ++ String.ofList cs := by
      rw [← String.toList_inj]
      simp [heq]
    have hsigned : negate (.numeral (String.ofList cs) none) = .numeral t none := by
      rw [negate, not_startsWith_minus_of_isRun hrun, if_neg Bool.false_ne_true, ← ht]
    rw [← hsigned]
    exact .signed rfl rfl (.numeral rfl (startsWithDigit_of_isRun hrun))
  · exact .numeral rfl (startsWithDigit_of_isRun h)

theorem derives_tokens {e : Expr} (hs : e.spelled = true) (ha : e.asciiMixed = true) :
    Derives e.phrase e.tokens e.foldSigns.bare := by
  induction e with
  | numeral t p => exact derives_numeralTokens hs
  | binary o l r p ihl ihr =>
    rw [spelled, Bool.and_eq_true] at hs
    rw [asciiMixed, Bool.and_eq_true] at ha
    exact .join (derives_left (ihl hs.1 ha.1)) (operation?_symbol o)
      (derives_right (ihr hs.2 ha.2))
  | negation a p ih =>
    rw [foldSigns, bare_withSign]
    exact .signed rfl rfl (derives_signed (ih hs ha))
  | fraction n d p ihn ihd =>
    rw [spelled, Bool.and_eq_true] at hs
    rw [asciiMixed, Bool.and_eq_true] at ha
    have hn := derives_sum (ihn hs.1 ha.1)
    have hd := derives_sum (ihd hs.2 ha.2)
    have htokens : (fraction n d p).tokens = ⟨.fraction, "\\frac"⟩ :: ⟨.openBrace, "\x7b"⟩ ::
        n.tokens ++ ⟨.closeBrace, "\x7d"⟩ :: ⟨.openBrace, "\x7b"⟩ :: d.tokens ++
          [⟨.closeBrace, "\x7d"⟩] := by
      simp [tokens, braceTokens]
    rw [htokens]
    exact .fraction rfl rfl hn rfl rfl hd rfl
  | mixed w n d p =>
    rw [spelled, Bool.and_eq_true, Bool.and_eq_true] at hs
    rw [asciiMixed, Bool.and_eq_true] at ha
    exact .mixed rfl (startsWithDigit_of_isRun hs.1.1) rfl rfl rfl ha.1 rfl rfl rfl ha.2 rfl

end Expr

namespace Parsed

open Annotations FormulaMap.Parser Token

theorem ofString_ofList (cs : List Char) : ofString (String.ofList cs) = ofTokens (lex cs) := by
  rw [ofString, Token.ofString, String.toList_ofList, lex]

theorem ofString_content {e : Expr} (hs : e.spelled = true) :
    ofString (stripText e.annotated) = ofTokens e.tokens := by
  rw [Expr.stripText_annotated (Expr.plainTexts_of_spelled hs), ofString_ofList,
    Expr.lex_content hs]

theorem ofString_annotated {e : Expr} (hs : e.spelled = true) (ha : e.asciiMixed = true) :
    ofString (stripText e.annotated) = ⟨some e.foldSigns.bare, []⟩ := by
  rw [ofString_content hs]
  exact ofTokens_of_derives (Expr.derives_sum (Expr.derives_tokens hs ha))

/-- Writing an expression with its annotations, stripping them and reading the rest
gives the expression with its signs folded and remarks nothing.  Where no sign stands
before an unsigned numeral it gives the expression itself. -/
theorem ofString_stripText_annotated (e : Expr) (hs : e.spelled = true)
    (ha : e.asciiMixed = true) :
    ofString (stripText e.annotated) = ⟨some e.foldSigns.bare, []⟩ ∧
      (e.signsFolded = true → ofString (stripText e.annotated) = ⟨some e.bare, []⟩) := by
  have hread := ofString_annotated hs ha
  refine ⟨hread, ?_⟩
  intro hfolded
  rw [hread, Expr.bare_foldSigns_of_signsFolded hfolded]

/-- A negated difference over a mixed number: the sign before `2` is read into it, the
sign before the parentheses stays, and braces in a path do no harm. -/
theorem ofString_negated_difference :
    let e : Expr := .fraction
      (.negation (.binary .subtract (.numeral "1.5" (some "a\x7d\\b"))
        (.negation (.numeral "2" none) none) none) none)
      (.mixed "3" "4" "5" (some "")) none
    e.spelled = true ∧ e.asciiMixed = true ∧
      ofString (stripText e.annotated) = ⟨some (.fraction
        (.negation (.binary .subtract (.numeral "1.5" none) (.numeral "-2" none) none) none)
        (.mixed "3" "4" "5" none) none), []⟩ :=
  ⟨by decide +kernel, by decide +kernel,
    (ofString_stripText_annotated _ (by decide +kernel) (by decide +kernel)).1.trans
      (by decide +kernel)⟩

end Parsed

end FormulaMap

/-
Segments and tokens.

A text is cut in two ways: a formula into tokens, and the text of an element into segments
where digits and operator signs are run together.  The tokens know white space, brackets
and commands, the segments single letters.  On a text without commands they have the same
numerals and the same operators, in the same order (`tokens_ofString`), so a numeral on the
page is one of the expression whichever way it was cut.

Both scans take a numeral as a whole, and otherwise one character at a time as far as
numerals and operators go (`arithmetic_digit`, `arithmetic_char`); white space is taken in
runs by the tokens and skipped by the segments.
-/
import FormulaMap.Proofs.Formula.Lexing
import FormulaMap.Proofs.Surface.Glyphs

namespace FormulaMap

namespace Token

/-- Numerals and operators. -/
def isArithmetic (t : Token) : Bool := t.kind = .number || t.kind = .operator

/-- The numerals and operators of a formula, in order. -/
def arithmetic (cs : List Char) : List Token := (scan cs).filter isArithmetic

/-- The token of an operator character, and none of any other. -/
def operatorTokens (c : Char) : List Token :=
  if isOperatorChar c then [⟨.operator, String.singleton c⟩] else []

variable {c : Char}

theorem not_isOperatorChar_of_isBlank (h : Text.isBlank c = true) : isOperatorChar c = false := by
  refine Bool.eq_false_iff.2 fun hoperator => ?_
  rw [Text.isBlank_of_glyphChars (Text.glyphChars_of_isOperatorChar hoperator)] at h
  exact Bool.false_ne_true h

/-- A bracket is no operator. -/
theorem not_isOperatorChar_of_bracket? {k : TokenKind} (h : bracket? c = some k) :
    isOperatorChar c = false ∧ k ≠ .number ∧ k ≠ .operator := by
  unfold bracket? at h
  split at h
  all_goals cases h
  all_goals exact ⟨by decide, TokenKind.noConfusion, TokenKind.noConfusion⟩

theorem arithmetic_nil : arithmetic [] = [] := by
  rw [arithmetic, scan_nil]
  rfl

theorem filter_space (s : String) (ts : List Token) :
    (⟨.space, s⟩ :: ts).filter isArithmetic = ts.filter isArithmetic :=
  List.filter_cons_of_neg Bool.false_ne_true

/-- White space at the front is no numeral and no operator, however long it is. -/
theorem arithmetic_blank (hc : Text.isBlank c = true) (cs : List Char) :
    arithmetic (c :: cs) = arithmetic cs := by
  rw [arithmetic, scan_blank hc, filter_space, arithmetic]
  cases cs with
  | nil => rfl
  | cons d ds =>
    by_cases hd : Text.isBlank d = true
    · rw [List.dropWhile_cons, if_pos hd, scan_blank hd, filter_space]
    · rw [List.dropWhile_cons, if_neg hd]

theorem arithmetic_digit (hc : Text.isDigit c = true) (cs : List Char) :
    arithmetic (c :: cs) = ⟨.number, String.ofList (c :: cs.takeWhile isNumeralChar)⟩ ::
      arithmetic (cs.dropWhile isNumeralChar) := by
  have hblank : ¬Text.isBlank c = true := by
    rw [Text.isBlank_of_isDigit hc]
    exact Bool.false_ne_true
  rw [arithmetic, scan, if_neg hblank, if_pos hc, List.filter_cons, if_pos (by rfl), arithmetic]

theorem filter_ofChar? (c : Char) : (ofChar? c).toList.filter isArithmetic = operatorTokens c := by
  rw [ofChar?, operatorTokens]
  split
  · next k hk =>
    obtain ⟨hoperator, hnumber, hsign⟩ := not_isOperatorChar_of_bracket? hk
    rw [hoperator, if_neg Bool.false_ne_true, Option.toList_some, List.filter_singleton, isArithmetic,
      decide_eq_false hnumber, decide_eq_false hsign]
    rfl
  · split
    · rfl
    · rfl

theorem arithmetic_char (hdigit : ¬Text.isDigit c = true) (hslash : c ≠ '\\') (cs : List Char) :
    arithmetic (c :: cs) = operatorTokens c ++ arithmetic cs := by
  by_cases hblank : Text.isBlank c = true
  · rw [arithmetic_blank hblank, operatorTokens, not_isOperatorChar_of_isBlank hblank]
    rfl
  · rw [arithmetic, scan_char (Bool.eq_false_iff.2 hblank) (Bool.eq_false_iff.2 hdigit) hslash,
      List.filter_append, filter_ofChar?, arithmetic]

end Token

namespace Segment

/-- The token that a segment shows; a letter is not a token. -/
def token? (s : Segment) : Option Token :=
  match s.kind with
  | .num => some ⟨.number, s.text⟩
  | .op => some ⟨.operator, s.text⟩
  | .var => none

/-- The tokens that segments show, in order. -/
def tokens (ss : List Segment) : List Token := ss.filterMap token?

theorem tokens_ofChar? (c : Char) : tokens (ofChar? c).toList = Token.operatorTokens c := by
  rw [ofChar?, Token.operatorTokens]
  split
  · rfl
  · split
    · rfl
    · rfl

theorem tokens_scan {cs : List Char} (h : '\\' ∉ cs) : tokens (scan cs) = Token.arithmetic cs := by
  induction cs using scan.induct with
  | case1 =>
    rw [scan, Token.arithmetic_nil]
    rfl
  | case2 c cs hdigit ih =>
    have hrest : '\\' ∉ cs.dropWhile Token.isNumeralChar := fun hmem =>
      h (List.mem_cons_of_mem c ((List.dropWhile_sublist _).subset hmem))
    rw [scan, if_pos hdigit, Token.arithmetic_digit hdigit, ← ih hrest]
    rfl
  | case3 c cs hdigit ih =>
    rw [List.mem_cons, not_or] at h
    rw [scan, if_neg hdigit, Token.arithmetic_char hdigit (Ne.symm h.1), ← ih h.2, tokens,
      List.filterMap_append]
    exact congrArg (· ++ tokens (scan cs)) (tokens_ofChar? c)

/-- In a text without a backslash, the numerals and operators that are cut out as segments
are those that are cut out as tokens, text for text. -/
theorem tokens_ofString {s : String} (h : '\\' ∉ s.toList) :
    tokens (ofString s) = (Token.ofString s).filter Token.isArithmetic :=
  tokens_scan h

/-- Brackets, spaces and letters are left out on both sides; a point belongs to a numeral only
after a digit. -/
theorem tokens_of_sum : tokens (ofString "12.5+ 3x×(.7−β)") =
    [⟨.number, "12.5"⟩, ⟨.operator, "+"⟩, ⟨.number, "3"⟩, ⟨.operator, "×"⟩, ⟨.number, "7"⟩,
      ⟨.operator, "−"⟩] ∧
    tokens (ofString "12.5+ 3x×(.7−β)") =
      (Token.ofString "12.5+ 3x×(.7−β)").filter Token.isArithmetic :=
  ⟨by decide +kernel, tokens_ofString (by decide +kernel)⟩

end Segment
end FormulaMap

/-
The source that an expression is written as, and what is read back from it.

`Expr.plainTexts` asks of an expression what keeps its notes and groups readable,
`Expr.spelled` what the lexer asks of numerals, and `Expr.asciiMixed` that the parts of
its mixed numbers are written in ASCII digits, which is what the reader asks of a mixed
number in front of a fraction.
`Expr.tokens` is what the lexer makes of the written source (`lex_content`), and the
grammar derives from these tokens the expression itself, up to one thing
(`derives_tokens`): a sign in front of a numeral that has none is read into the
numeral, which `Expr.foldSigns` does to the expression.
-/
import FormulaMap.Formula.Annotate
import FormulaMap.Proofs.Formula.Grammar
import FormulaMap.Proofs.Formula.Lexing
import FormulaMap.Proofs.Formula.Stripping

namespace FormulaMap
namespace Token

/-- A run of digits and points, or a sign before one. -/
def isSignedRun : List Char → Bool
  | '-' :: cs => isRun cs
  | cs => isRun cs

end Token

namespace Expr

open Annotations FormulaMap.Parser Token

/-! ## Which expressions are meant -/

/-- Numerals are runs with at most a sign before them, and the parts of mixed numbers
are runs. -/
def spelled : Expr → Bool
  | numeral t _ => isSignedRun t.toList
  | binary _ l r _ => l.spelled && r.spelled
  | negation a _ => a.spelled
  | fraction n d _ => n.spelled && d.spelled
  | mixed w n d _ => isRun w.toList && isRun n.toList && isRun d.toList

/-- Numerals and the parts of mixed numbers have no brace and no backslash. -/
def plainTexts : Expr → Bool
  | numeral t _ => t.toList.all isPlainChar
  | binary _ l r _ => l.plainTexts && r.plainTexts
  | negation a _ => a.plainTexts
  | fraction n d _ => n.plainTexts && d.plainTexts
  | mixed w n d _ =>
    w.toList.all isPlainChar && n.toList.all isPlainChar && d.toList.all isPlainChar

/-- The numerators and denominators of mixed numbers are runs of the digits `0` to
`9`. -/
def asciiMixed : Expr → Bool
  | numeral _ _ => true
  | binary _ l r _ => l.asciiMixed && r.asciiMixed
  | negation a _ => a.asciiMixed
  | fraction n d _ => n.asciiMixed && d.asciiMixed
  | mixed _ n d _ => Text.isNumber n.toList && Text.isNumber d.toList

def isUnsigned : Expr → Bool
  | numeral t _ => !t.startsWith "-"
  | _ => false

/-- No sign stands before an unsigned numeral. -/
def signsFolded : Expr → Bool
  | numeral _ _ => true
  | binary _ l r _ => l.signsFolded && r.signsFolded
  | negation a _ => !a.isUnsigned && a.signsFolded
  | fraction n d _ => n.signsFolded && d.signsFolded
  | mixed _ _ _ _ => true

/-- The expression with a sign before it, an unsigned numeral taking it in. -/
def withSign (p : Option String) : Expr → Expr
  | numeral t q => if t.startsWith "-" then negation (numeral t q) p else numeral ("-" ++ t) p
  | e => negation e p

/-- Every sign before an unsigned numeral made part of it, from the leaves up. -/
def foldSigns : Expr → Expr
  | numeral t p => numeral t p
  | binary o l r p => binary o l.foldSigns r.foldSigns p
  | negation a p => a.foldSigns.withSign p
  | fraction n d p => fraction n.foldSigns d.foldSigns p
  | mixed w n d p => mixed w n d p

/-! ## Paths do not matter -/

theorem spelled_bare (e : Expr) : e.bare.spelled = e.spelled := by
  induction e with
  | numeral t p => rfl
  | binary o l r p ihl ihr => rw [bare, spelled, spelled, ihl, ihr]
  | negation a p ih => rw [bare, spelled, spelled, ih]
  | fraction n d p ihn ihd => rw [bare, spelled, spelled, ihn, ihd]
  | mixed w n d p => rfl

theorem asciiMixed_bare (e : Expr) : e.bare.asciiMixed = e.asciiMixed := by
  induction e with
  | numeral t p => rfl
  | binary o l r p ihl ihr => rw [bare, asciiMixed, asciiMixed, ihl, ihr]
  | negation a p ih => rw [bare, asciiMixed, asciiMixed, ih]
  | fraction n d p ihn ihd => rw [bare, asciiMixed, asciiMixed, ihn, ihd]
  | mixed w n d p => rfl

theorem isUnsigned_bare (e : Expr) : e.bare.isUnsigned = e.isUnsigned := by
  cases e <;> rfl

theorem signsFolded_bare (e : Expr) : e.bare.signsFolded = e.signsFolded := by
  induction e with
  | numeral t p => rfl
  | binary o l r p ihl ihr => rw [bare, signsFolded, signsFolded, ihl, ihr]
  | negation a p ih => rw [bare, signsFolded, signsFolded, ih, isUnsigned_bare]
  | fraction n d p ihn ihd => rw [bare, signsFolded, signsFolded, ihn, ihd]
  | mixed w n d p => rfl

theorem bare_assignFrom (e : Expr) (p : String) : (e.assignFrom p).bare = e.bare := by
  induction e generalizing p with
  | numeral t q => rfl
  | binary o l r q ihl ihr => rw [assignFrom, bare, bare, ihl, ihr]
  | negation a q ih => rw [assignFrom, bare, bare, ih]
  | fraction n d q ihn ihd => rw [assignFrom, bare, bare, ihn, ihd]
  | mixed w n d q => rfl

/-! ## Signs -/

theorem bare_withSign (e : Expr) (p : Option String) : (e.withSign p).bare = negate e.bare := by
  cases e with
  | numeral t q =>
    rw [withSign, bare, negate]
    split <;> rfl
  | binary o l r q => rfl
  | negation a q => rfl
  | fraction n d q => rfl
  | mixed w n d q => rfl

theorem negate_of_not_isUnsigned {e : Expr} (h : e.isUnsigned = false) :
    negate e = .negation e none := by
  cases e with
  | numeral t q =>
    rw [isUnsigned, Bool.not_eq_false'] at h
    rw [negate, if_pos h]
  | binary o l r q => rfl
  | negation a q => rfl
  | fraction n d q => rfl
  | mixed w n d q => rfl

theorem bare_foldSigns_of_signsFolded {e : Expr} (h : e.signsFolded = true) :
    e.foldSigns.bare = e.bare := by
  induction e with
  | numeral t p => rfl
  | binary o l r p ihl ihr =>
    rw [signsFolded, Bool.and_eq_true] at h
    rw [foldSigns, bare, bare, ihl h.1, ihr h.2]
  | negation a p ih =>
    rw [signsFolded, Bool.and_eq_true, Bool.not_eq_true'] at h
    rw [foldSigns, bare_withSign, ih h.2, bare]
    exact negate_of_not_isUnsigned (isUnsigned_bare a ▸ h.1)
  | fraction n d p ihn ihd =>
    rw [signsFolded, Bool.and_eq_true] at h
    rw [foldSigns, bare, bare, ihn h.1, ihd h.2]
  | mixed w n d p => rfl

/-! ## The written source is stripped to its content -/

theorem plain_note (p : Option String) (r : Role) (o : Option BinaryOperation) :
    (note p r (o.map BinaryOperation.symbol)).all isPlainChar = true := by
  have hhead : "ast-id=".toList.all isPlainChar = true := by decide
  have hmiddle : ", role=".toList.all isPlainChar = true := by decide
  have hrole : r.name.toList.all isPlainChar = true := by
    cases r <;> decide
  have hpath : (escapePath p).all isPlainChar = true :=
    List.all_eq_true.2 fun c hc => (List.mem_filter.1 hc).2
  unfold note
  simp only [List.all_append, Bool.and_eq_true]
  refine ⟨⟨⟨⟨hhead, hpath⟩, hmiddle⟩, hrole⟩, ?_⟩
  cases o with
  | none => exact List.all_nil
  | some o => cases o <;> decide

theorem mem_isSignedRun {cs : List Char} (h : isSignedRun cs = true) :
    ∀ c ∈ cs, c = '-' ∨ isNumeralChar c = true := by
  unfold isSignedRun at h
  split at h
  · next cs =>
    intro c hc
    rcases List.mem_cons.1 hc with rfl | hc
    · exact Or.inl rfl
    · exact Or.inr (isNumeralChar_of_mem_isRun h c hc)
  · exact fun c hc => Or.inr (isNumeralChar_of_mem_isRun h c hc)

theorem plain_of_isNumeralChar {c : Char} (h : isNumeralChar c = true) : isPlainChar c = true := by
  have hnot : ∀ d, isNumeralChar d = false → c ≠ d := by
    rintro d hd rfl
    rw [hd] at h
    exact Bool.false_ne_true h
  have hopen := hnot '{' (by decide)
  have hclose := hnot '}' (by decide)
  have hslash := hnot '\\' (by decide)
  simp [isPlainChar, hopen, hclose, hslash]

theorem plain_of_isRun {cs : List Char} (h : isRun cs = true) : cs.all isPlainChar = true :=
  List.all_eq_true.2 fun c hc => plain_of_isNumeralChar (isNumeralChar_of_mem_isRun h c hc)

theorem plain_of_isSignedRun {cs : List Char} (h : isSignedRun cs = true) :
    cs.all isPlainChar = true := by
  rw [List.all_eq_true]
  intro c hc
  rcases mem_isSignedRun h c hc with rfl | hnum
  · decide
  · exact plain_of_isNumeralChar hnum

theorem plainTexts_of_spelled {e : Expr} (h : e.spelled = true) : e.plainTexts = true := by
  induction e with
  | numeral t p => exact plain_of_isSignedRun h
  | binary o l r p ihl ihr =>
    rw [spelled, Bool.and_eq_true] at h
    rw [plainTexts, ihl h.1, ihr h.2, Bool.and_true]
  | negation a p ih => exact ih h
  | fraction n d p ihn ihd =>
    rw [spelled, Bool.and_eq_true] at h
    rw [plainTexts, ihn h.1, ihd h.2, Bool.and_true]
  | mixed w n d p =>
    rw [spelled, Bool.and_eq_true, Bool.and_eq_true] at h
    rw [plainTexts, plain_of_isRun h.1.1, plain_of_isRun h.1.2, plain_of_isRun h.2,
      Bool.and_true, Bool.and_true]

theorem plain_text {cs : List Char} (h : cs.all (fun c => !isBrace c) = true) :
    (Markup.text cs).Plain := h

theorem plain_wrapIf {m : Markup} (b : Bool) (h : m.Plain) : (wrapIf b m).Plain := by
  cases b with
  | false => exact h
  | true => exact ⟨plain_text (by decide), h, plain_text (by decide)⟩

theorem headed_wrapIf {m : Markup} (b : Bool) (h : ∀ rest, m.Headed rest) (rest : List Char) :
    (wrapIf b m).Headed rest := by
  cases b with
  | false => exact h rest
  | true =>
    exact ⟨noCommand_of_no_slash (by decide) _, h _, noCommand_of_no_slash (by decide) rest⟩

theorem plain_markup {e : Expr} (h : e.plainTexts = true) : e.markup.Plain := by
  have hnote := fun p r o => no_brace_of_plain (plain_note p r o)
  induction e with
  | numeral t p => exact ⟨hnote p .number none, no_brace_of_plain h⟩
  | binary o l r p ihl ihr =>
    rw [plainTexts, Bool.and_eq_true] at h
    have hdisplay : o.display.toList.all (fun c => !isBrace c) = true := by
      cases o <;> decide
    have hspace : (Markup.text [' ']).Plain := plain_text (by decide)
    exact ⟨plain_wrapIf _ (ihl h.1), hspace, ⟨hnote p .operator (some o), hdisplay⟩,
      hspace, plain_wrapIf _ (ihr h.2)⟩
  | negation a p ih => exact ⟨plain_text (by decide), plain_wrapIf _ (ih h)⟩
  | fraction n d p ihn ihd =>
    rw [plainTexts, Bool.and_eq_true] at h
    exact ⟨hnote p .fraction none, plain_text (by decide), ihn h.1, ihd h.2⟩
  | mixed w n d p =>
    rw [plainTexts, Bool.and_eq_true, Bool.and_eq_true] at h
    have hwhole : Markup.Plain (.ofString (w ++ "\\frac")) := by
      show (w ++ "\\frac").toList.all (fun c => !isBrace c) = true
      rw [String.toList_append, List.all_append, no_brace_of_plain h.1.1]
      decide
    exact ⟨hnote p .mixed none, hwhole, no_brace_of_plain h.1.2, no_brace_of_plain h.2⟩

theorem noCommand_frac (rest : List Char) : NoCommand "\\frac".toList rest :=
  noCommand_of_name (by decide) (by decide) rest

theorem noCommand_display (o : BinaryOperation) (rest : List Char) :
    NoCommand o.display.toList rest := by
  cases o with
  | add => exact noCommand_of_no_slash (by decide) rest
  | subtract => exact noCommand_of_no_slash (by decide) rest
  | multiply => exact noCommand_of_name (by decide) (by decide) rest
  | divide => exact noCommand_of_name (by decide) (by decide) rest

theorem headed_markup {e : Expr} (h : e.plainTexts = true) (rest : List Char) :
    e.markup.Headed rest := by
  induction e generalizing rest with
  | numeral t p => exact noCommand_of_plain h _
  | binary o l r p ihl ihr =>
    rw [plainTexts, Bool.and_eq_true] at h
    have hspace : ∀ us, NoCommand [' '] us := noCommand_of_no_slash (by decide)
    exact ⟨headed_wrapIf _ (ihl h.1) _, hspace _, noCommand_display o _, hspace _,
      headed_wrapIf _ (ihr h.2) rest⟩
  | negation a p ih => exact ⟨noCommand_of_no_slash (by decide) _, headed_wrapIf _ (ih h) rest⟩
  | fraction n d p ihn ihd =>
    rw [plainTexts, Bool.and_eq_true] at h
    exact ⟨noCommand_frac _, ihn h.1 _, ihd h.2 _⟩
  | mixed w n d p =>
    rw [plainTexts, Bool.and_eq_true, Bool.and_eq_true] at h
    have hwhole : ∀ us, NoCommand (w ++ "\\frac").toList us := by
      intro us
      rw [String.toList_append]
      exact noCommand_append (noCommand_of_plain h.1.1 _) (noCommand_frac us)
    exact ⟨hwhole _, noCommand_of_plain h.1.2 _, noCommand_of_plain h.2 _⟩

theorem stripText_annotated {e : Expr} (h : e.plainTexts = true) :
    stripText e.annotated = String.ofList e.markup.content := by
  rw [stripText, annotated, String.toList_ofList,
    Markup.strip_render (plain_markup h) (headed_markup h [])]

/-! ## The content is cut into the tokens of the expression -/

def numeralTokens (t : String) : List Token :=
  match t.toList with
  | '-' :: cs => [⟨.operator, "-"⟩, ⟨.number, String.ofList cs⟩]
  | _ => [⟨.number, t⟩]

def wrapTokens (b : Bool) (ts : List Token) : List Token :=
  if b then ⟨.openParen, "("⟩ :: ts ++ [⟨.closeParen, ")"⟩] else ts

def braceTokens (ts : List Token) : List Token :=
  ⟨.openBrace, "\x7b"⟩ :: ts ++ [⟨.closeBrace, "\x7d"⟩]

def tokens : Expr → List Token
  | numeral t _ => numeralTokens t
  | binary o l r _ =>
    wrapTokens (leftNeedsParens o l) l.tokens ++
      ⟨.operator, o.symbol⟩ :: wrapTokens (rightNeedsParens o r) r.tokens
  | negation a _ => ⟨.operator, "-"⟩ :: wrapTokens (signNeedsParens a) a.tokens
  | fraction n d _ => ⟨.fraction, "\\frac"⟩ :: (braceTokens n.tokens ++ braceTokens d.tokens)
  | mixed w n d _ =>
    ⟨.number, w⟩ :: ⟨.fraction, "\\frac"⟩ ::
      (braceTokens [⟨.number, n⟩] ++ braceTokens [⟨.number, d⟩])

/-- The text gives these tokens wherever a numeral may end after it. -/
def Lexes (cs : List Char) (ts : List Token) : Prop :=
  ∀ rest, EndsNumeral rest → lex (cs ++ rest) = ts ++ lex rest

theorem lexes_run {s : String} (h : isRun s.toList = true) : Lexes s.toList [⟨.number, s⟩] := by
  intro rest hrest
  rw [lex_run h hrest, String.ofList_toList]
  rfl

theorem lexes_signedRun {t : String} (h : isSignedRun t.toList = true) :
    Lexes t.toList (numeralTokens t) := by
  unfold isSignedRun at h
  unfold numeralTokens
  split at h
  · next cs heq =>
    intro rest hrest
    rw [heq, List.cons_append, stands_minus.lex, lex_run h hrest]
    rfl
  · exact lexes_run h

theorem lexes_wrapIf {m : Markup} {ts : List Token} (b : Bool) (h : Lexes m.content ts) :
    Lexes (wrapIf b m).content (wrapTokens b ts) := by
  cases b with
  | false => exact h
  | true =>
    intro rest _
    have hclose := stands_closeParen.endsNumeral (by decide) rest
    calc lex ((wrapIf true m).content ++ rest)
        = lex ('(' :: (m.content ++ ')' :: rest)) := by simp [wrapIf, parenthesized, Markup.content]
      _ = ⟨.openParen, "("⟩ :: (ts ++ ⟨.closeParen, ")"⟩ :: lex rest) := by
          rw [stands_openParen.lex, h _ hclose, stands_closeParen.lex]
      _ = wrapTokens true ts ++ lex rest := by simp [wrapTokens]

theorem lexes_braced {cs : List Char} {ts : List Token} (h : Lexes cs ts) (rest : List Char) :
    lex (Markup.braced cs ++ rest) = braceTokens ts ++ lex rest := by
  have hclose := stands_closeBrace.endsNumeral (by decide) rest
  calc lex (Markup.braced cs ++ rest)
      = lex ('{' :: (cs ++ '}' :: rest)) := by simp [Markup.braced]
    _ = ⟨.openBrace, "\x7b"⟩ :: (ts ++ ⟨.closeBrace, "\x7d"⟩ :: lex rest) := by
        rw [stands_openBrace.lex, h _ hclose, stands_closeBrace.lex]
    _ = braceTokens ts ++ lex rest := by simp [braceTokens]

/-- The name of a command ends before a space and before a brace. -/
theorem isLetter_space_brace : Text.isLetter ' ' = false ∧ Text.isLetter '{' = false := by
  decide +kernel

theorem scan_display (o : BinaryOperation) (rest : List Char) :
    scan (o.display.toList ++ ' ' :: rest) = ⟨.operator, o.symbol⟩ :: scan (' ' :: rest) := by
  have hspace : Delimits Text.isLetter (' ' :: rest) := delimits_cons isLetter_space_brace.1 rest
  cases o with
  | add => exact stands_plus.scan _
  | subtract => exact stands_minus.scan _
  | multiply =>
    have hname : ofCommand? "cdot".toList = some ⟨.operator, "*"⟩ := by decide
    have h := scan_command (by decide : "cdot".toList.isEmpty = false) (by decide) hspace
    rwa [hname] at h
  | divide =>
    have hname : ofCommand? "div".toList = some ⟨.operator, "/"⟩ := by decide
    have h := scan_command (by decide : "div".toList.isEmpty = false) (by decide) hspace
    rwa [hname] at h

theorem scan_spaced_display (o : BinaryOperation) (rest : List Char) :
    ∃ s, scan (' ' :: (o.display.toList ++ ' ' :: rest)) =
      ⟨.space, s⟩ :: ⟨.operator, o.symbol⟩ :: scan (' ' :: rest) := by
  have hdrop : (o.display.toList ++ ' ' :: rest).dropWhile Text.isBlank =
      o.display.toList ++ ' ' :: rest := by
    cases o <;> rfl
  refine ⟨String.ofList (' ' :: (o.display.toList ++ ' ' :: rest).takeWhile Text.isBlank), ?_⟩
  rw [scan_blank (by decide), hdrop, scan_display]

theorem lex_spaced_display (o : BinaryOperation) (rest : List Char) :
    lex (' ' :: (o.display.toList ++ ' ' :: rest)) = ⟨.operator, o.symbol⟩ :: lex rest := by
  obtain ⟨s, hscan⟩ := scan_spaced_display o rest
  rw [lex, hscan, fuse_space, fuse_cons TokenKind.noConfusion
    (leadingMixed?_of_kind TokenKind.noConfusion)]
  exact congrArg _ (lex_blank (by decide) rest)

theorem endsNumeral_spaced_display (o : BinaryOperation) (rest : List Char) :
    EndsNumeral (' ' :: (o.display.toList ++ ' ' :: rest)) where
  delimits := delimits_cons (by decide) _
  apart := by
    intro w
    obtain ⟨s, hscan⟩ := scan_spaced_display o rest
    rw [hscan]
    rfl

theorem scan_fraction (rest : List Char) :
    scan ("\\frac".toList ++ '{' :: rest) = ⟨.fraction, "\\frac"⟩ :: scan ('{' :: rest) := by
  have hname : ofCommand? "frac".toList = some ⟨.fraction, "\\frac"⟩ := by decide
  have h := scan_command (by decide : "frac".toList.isEmpty = false) (by decide)
    (delimits_cons isLetter_space_brace.2 rest)
  rwa [hname] at h

theorem lex_fraction (cs rest : List Char) :
    lex ("\\frac".toList ++ (Markup.braced cs ++ rest)) =
      ⟨.fraction, "\\frac"⟩ :: lex (Markup.braced cs ++ rest) := by
  show lex ("\\frac".toList ++ '{' :: (cs ++ ['}'] ++ rest)) = _
  rw [lex, scan_fraction, fuse_cons TokenKind.noConfusion
    (leadingMixed?_of_kind TokenKind.noConfusion)]
  rfl

theorem endsNumeral_fraction (cs rest : List Char) :
    EndsNumeral ("\\frac".toList ++ (Markup.braced cs ++ rest)) :=
  endsNumeral_of_scan (by decide) (scan_fraction (cs ++ ['}'] ++ rest))
    TokenKind.noConfusion

theorem lexes_content {e : Expr} (h : e.spelled = true) : Lexes e.markup.content e.tokens := by
  induction e with
  | numeral t p => exact lexes_signedRun h
  | binary o l r p ihl ihr =>
    rw [spelled, Bool.and_eq_true] at h
    intro rest hrest
    have hl := lexes_wrapIf (leftNeedsParens o l) (ihl h.1)
    have hr := lexes_wrapIf (rightNeedsParens o r) (ihr h.2)
    rw [show (binary o l r p).markup.content ++ rest =
        (wrapIf (leftNeedsParens o l) l.markup).content ++ (' ' :: (o.display.toList ++ ' ' ::
          ((wrapIf (rightNeedsParens o r) r.markup).content ++ rest))) by
      simp [markup, Markup.content, Markup.ofString]]
    rw [hl _ (endsNumeral_spaced_display o _), lex_spaced_display, hr rest hrest, tokens,
      List.append_assoc, List.cons_append]
  | negation a p ih =>
    intro rest hrest
    have ha := lexes_wrapIf (signNeedsParens a) (ih h)
    show lex ('-' :: ((wrapIf (signNeedsParens a) a.markup).content ++ rest)) = _
    rw [stands_minus.lex, ha rest hrest]
    rfl
  | fraction n d p ihn ihd =>
    rw [spelled, Bool.and_eq_true] at h
    intro rest _
    rw [show (fraction n d p).markup.content ++ rest = "\\frac".toList ++
        (Markup.braced n.markup.content ++ (Markup.braced d.markup.content ++ rest)) by
      simp [markup, Markup.content, Markup.ofString]]
    rw [lex_fraction, lexes_braced (ihn h.1), lexes_braced (ihd h.2), tokens, List.cons_append,
      List.append_assoc]
  | mixed w n d p =>
    rw [spelled, Bool.and_eq_true, Bool.and_eq_true] at h
    intro rest _
    rw [show (mixed w n d p).markup.content ++ rest = w.toList ++ ("\\frac".toList ++
        (Markup.braced n.toList ++ (Markup.braced d.toList ++ rest))) by
      simp [markup, Markup.content, Markup.ofString]]
    rw [lexes_run h.1.1 _ (endsNumeral_fraction _ _), lex_fraction,
      lexes_braced (lexes_run h.1.2), lexes_braced (lexes_run h.2)]
    simp [tokens]

theorem lex_content {e : Expr} (h : e.spelled = true) : lex e.markup.content = e.tokens := by
  have hlex := lexes_content h [] endsNumeral_nil
  rwa [List.append_nil, lex_nil, List.append_nil] at hlex

end Expr
end FormulaMap

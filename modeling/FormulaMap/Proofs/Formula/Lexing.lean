/-
From the characters of a formula to its tokens, piece by piece.

Every lemma of this module has the same shape: a piece of source at the front of a
formula gives its own tokens, and the rest of the formula is cut as if it stood
alone.  Only a numeral looks past its end, at characters that would continue it and
at a space and a second number that would make it a mixed one; `EndsNumeral` is the
condition on what follows that rules out both.
-/
import FormulaMap.Formula.Token

namespace FormulaMap
namespace Token

/-- The tokens of a formula, mixed numbers joined and spaces dropped. -/
def lex (cs : List Char) : List Token := fuse (scan cs)

/-! ## Fusing -/

theorem fuse_space (s : String) (ts : List Token) : fuse (⟨.space, s⟩ :: ts) = fuse ts := by
  rw [fuse]
  rfl

theorem leadingMixed?_of_kind {t : Token} {ts : List Token} (h : t.kind ≠ .number) :
    leadingMixed? (t :: ts) = none := by
  unfold leadingMixed?
  split
  · next heq =>
    rw [List.cons.injEq] at heq
    rw [heq.1] at h
    exact absurd rfl h
  · rfl

theorem fuse_cons {t : Token} {ts : List Token} (hspace : t.kind ≠ .space)
    (hmixed : leadingMixed? (t :: ts) = none) : fuse (t :: ts) = t :: fuse ts := by
  rw [fuse, hmixed]
  exact if_neg hspace

/-! ## Scanning one piece -/

theorem scan_nil : scan [] = [] := by rw [scan]

theorem scan_blank {c : Char} (hc : Text.isBlank c = true) (cs : List Char) :
    scan (c :: cs) = ⟨.space, String.ofList (c :: cs.takeWhile Text.isBlank)⟩ ::
      scan (cs.dropWhile Text.isBlank) := by
  rw [scan, if_pos hc]

theorem scan_digit {c : Char} (hc : Text.isDigit c = true) (cs : List Char) :
    scan (c :: cs) = ⟨.number, String.ofList (c :: cs.takeWhile isNumeralChar)⟩ ::
      scan (cs.dropWhile isNumeralChar) := by
  rw [scan, if_neg (by rw [Text.isBlank_of_isDigit hc]; exact Bool.false_ne_true), if_pos hc]

theorem isNumeralChar_of_isDigit {c : Char} (h : Text.isDigit c = true) :
    isNumeralChar c = true := by
  rw [isNumeralChar, h, Bool.true_or]

/-- A digit and the numeral characters after it. -/
def isRun : List Char → Bool
  | [] => false
  | c :: cs => Text.isDigit c && cs.all isNumeralChar

/-- The character at the front, if there is one, is not of the class. -/
def Delimits (p : Char → Bool) (rest : List Char) : Prop := ∀ c cs, rest = c :: cs → p c = false

section
variable {p : Char → Bool} {cs rest : List Char}

theorem takeWhile_append_of_delimits (hcs : cs.all p = true) (hrest : Delimits p rest) :
    (cs ++ rest).takeWhile p = cs := by
  rw [List.all_eq_true] at hcs
  rw [List.takeWhile_append_of_pos hcs]
  cases rest with
  | nil => rw [List.takeWhile_nil, List.append_nil]
  | cons c more => rw [List.takeWhile_cons, hrest c more rfl, if_neg Bool.false_ne_true,
      List.append_nil]

theorem dropWhile_append_of_delimits (hcs : cs.all p = true) (hrest : Delimits p rest) :
    (cs ++ rest).dropWhile p = rest := by
  rw [List.all_eq_true] at hcs
  rw [List.dropWhile_append_of_pos hcs]
  cases rest with
  | nil => rfl
  | cons c more => rw [List.dropWhile_cons, hrest c more rfl, if_neg Bool.false_ne_true]

theorem delimits_cons {c : Char} (hc : p c = false) (cs : List Char) : Delimits p (c :: cs) := by
  intro d ds heq
  rw [List.cons.injEq] at heq
  rw [← heq.1]
  exact hc

end

theorem scan_run {cs rest : List Char} (hcs : isRun cs = true)
    (hrest : Delimits isNumeralChar rest) :
    scan (cs ++ rest) = ⟨.number, String.ofList cs⟩ :: scan rest := by
  cases cs with
  | nil => exact absurd hcs (by decide)
  | cons c cs =>
    rw [isRun, Bool.and_eq_true] at hcs
    obtain ⟨hc, hcs⟩ := hcs
    rw [List.cons_append, scan_digit hc, takeWhile_append_of_delimits hcs hrest,
      dropWhile_append_of_delimits hcs hrest]

theorem scan_char {c : Char} (hblank : Text.isBlank c = false) (hdigit : Text.isDigit c = false)
    (hslash : c ≠ '\\') (cs : List Char) : scan (c :: cs) = (ofChar? c).toList ++ scan cs := by
  rw [scan, hblank, hdigit, if_neg Bool.false_ne_true, if_neg Bool.false_ne_true, if_neg hslash]

theorem scan_command {name rest : List Char} (hname : name.isEmpty = false)
    (hletters : name.all Text.isLetter = true) (hrest : Delimits Text.isLetter rest) :
    scan ('\\' :: (name ++ rest)) = (ofCommand? name).toList ++ scan rest := by
  rw [scan, if_neg (by decide), if_neg (by decide), if_pos rfl]
  dsimp only
  rw [takeWhile_append_of_delimits hletters hrest, dropWhile_append_of_delimits hletters hrest,
    hname, if_neg Bool.false_ne_true]

/-! ## Pieces of a formula -/

/-- What may follow a numeral: nothing that continues it and no space with a number
after it. -/
structure EndsNumeral (rest : List Char) : Prop where
  delimits : Delimits isNumeralChar rest
  apart : ∀ w, leadingMixed? (⟨.number, w⟩ :: scan rest) = none

theorem endsNumeral_nil : EndsNumeral [] where
  delimits := by simp [Delimits]
  apart := by
    intro w
    rw [scan_nil]
    rfl

theorem endsNumeral_of_scan {c : Char} {cs : List Char} {t : Token} {ts : List Token}
    (hc : isNumeralChar c = false) (hscan : scan (c :: cs) = t :: ts) (ht : t.kind ≠ .space) :
    EndsNumeral (c :: cs) where
  delimits := delimits_cons hc cs
  apart := by
    intro w
    rw [hscan]
    unfold leadingMixed?
    split
    · next heq =>
      simp only [List.cons.injEq] at heq
      rw [heq.2.1] at ht
      exact absurd rfl ht
    · rfl

theorem lex_nil : lex [] = [] := by
  rw [lex, scan_nil, fuse]

theorem lex_run {cs rest : List Char} (hcs : isRun cs = true) (hrest : EndsNumeral rest) :
    lex (cs ++ rest) = ⟨.number, String.ofList cs⟩ :: lex rest := by
  rw [lex, scan_run hcs hrest.delimits, fuse_cons TokenKind.noConfusion (hrest.apart _), lex]

theorem lex_blank {c : Char} (hc : Text.isBlank c = true) (cs : List Char) :
    lex (c :: cs) = lex cs := by
  rw [lex, scan_blank hc, fuse_space]
  cases cs with
  | nil => rfl
  | cons d ds =>
    by_cases hd : Text.isBlank d = true
    · rw [List.dropWhile_cons, if_pos hd, lex, scan_blank hd, fuse_space]
    · rw [List.dropWhile_cons, if_neg hd, lex]

/-- A character that is a token by itself. -/
structure Stands (c : Char) (t : Token) : Prop where
  blank : Text.isBlank c = false
  digit : Text.isDigit c = false
  slash : c ≠ '\\'
  token : ofChar? c = some t
  space : t.kind ≠ .space
  number : t.kind ≠ .number

section
variable {c : Char} {t : Token}

theorem Stands.scan (h : Stands c t) (cs : List Char) : scan (c :: cs) = t :: Token.scan cs := by
  rw [scan_char h.blank h.digit h.slash, h.token]
  rfl

theorem Stands.lex (h : Stands c t) (cs : List Char) : lex (c :: cs) = t :: Token.lex cs := by
  rw [Token.lex, h.scan, fuse_cons h.space (leadingMixed?_of_kind h.number), Token.lex]

theorem Stands.endsNumeral (h : Stands c t) (hc : isNumeralChar c = false) (cs : List Char) :
    EndsNumeral (c :: cs) :=
  endsNumeral_of_scan hc (h.scan cs) h.space

end

theorem stands_minus : Stands '-' ⟨.operator, "-"⟩ := by constructor <;> decide

theorem stands_plus : Stands '+' ⟨.operator, "+"⟩ := by constructor <;> decide

theorem stands_openParen : Stands '(' ⟨.openParen, "("⟩ := by constructor <;> decide

theorem stands_closeParen : Stands ')' ⟨.closeParen, ")"⟩ := by constructor <;> decide

theorem stands_openBrace : Stands '{' ⟨.openBrace, "\x7b"⟩ := by constructor <;> decide

theorem stands_closeBrace : Stands '}' ⟨.closeBrace, "\x7d"⟩ := by constructor <;> decide

/-! ## What tokens there are -/

theorem isNumeralChar_of_mem_isRun {cs : List Char} (h : isRun cs = true) :
    ∀ c ∈ cs, isNumeralChar c = true := by
  cases cs with
  | nil => simp
  | cons c cs =>
    rw [isRun, Bool.and_eq_true, List.all_eq_true] at h
    intro d hd
    rcases List.mem_cons.1 hd with rfl | hd
    · exact isNumeralChar_of_isDigit h.1
    · exact h.2 d hd

/-- A number is a run, and a mixed number has three runs for its parts. -/
structure Spelt (t : Token) : Prop where
  number : t.kind = .number → isRun t.text.toList = true
  mixed : t.kind = .mixed → ∃ w n d, isRun w.toList = true ∧ isRun n.toList = true ∧
    isRun d.toList = true ∧ mixedParts t.text = .ok (w, n, d)

/-- Parts joined by underscores come apart again. -/
theorem mixedParts_of_not_mem {w n d : String} (hw : '_' ∉ w.toList) (hn : '_' ∉ n.toList)
    (hd : '_' ∉ d.toList) : mixedParts (w ++ "_" ++ n ++ "_" ++ d) = .ok (w, n, d) := by
  have hsplit : (w ++ "_" ++ n ++ "_" ++ d).toList.splitOn '_' = [w.toList, n.toList, d.toList] := by
    rw [show (w ++ "_" ++ n ++ "_" ++ d).toList =
        w.toList ++ '_' :: (n.toList ++ '_' :: d.toList) by simp]
    rw [List.splitOn_append_cons_self_of_not_mem hw,
      List.splitOn_append_cons_self_of_not_mem hn, List.splitOn_eq_singleton hd]
  rw [mixedParts, hsplit]
  simp only [String.ofList_toList]

theorem mixedParts_join {w n d : String} (hw : isRun w.toList = true) (hn : isRun n.toList = true)
    (hd : isRun d.toList = true) : mixedParts (w ++ "_" ++ n ++ "_" ++ d) = .ok (w, n, d) := by
  have hfree : ∀ {s : String}, isRun s.toList = true → '_' ∉ s.toList := by
    intro s hs hmem
    exact absurd (isNumeralChar_of_mem_isRun hs _ hmem) (by decide)
  exact mixedParts_of_not_mem (hfree hw) (hfree hn) (hfree hd)

theorem kind_of_ofCommand? {name : List Char} {t : Token} (h : ofCommand? name = some t) :
    t.kind ≠ .number ∧ t.kind ≠ .mixed := by
  unfold ofCommand? at h
  split at h
  all_goals cases h
  all_goals exact ⟨TokenKind.noConfusion, TokenKind.noConfusion⟩

theorem kind_of_ofChar? {c : Char} {t : Token} (h : ofChar? c = some t) :
    t.kind ≠ .number ∧ t.kind ≠ .mixed := by
  unfold ofChar? at h
  split at h
  · next k hk =>
    cases h
    unfold bracket? at hk
    split at hk
    all_goals cases hk
    all_goals exact ⟨TokenKind.noConfusion, TokenKind.noConfusion⟩
  · split at h
    all_goals cases h
    exact ⟨TokenKind.noConfusion, TokenKind.noConfusion⟩

/-- Scanning makes no mixed numbers, and numbers are runs. -/
theorem mem_scan {cs : List Char} {t : Token} (h : t ∈ scan cs) :
    t.kind ≠ .mixed ∧ (t.kind = .number → isRun t.text.toList = true) := by
  induction cs using scan.induct with
  | case1 =>
    rw [scan_nil] at h
    exact absurd h List.not_mem_nil
  | case2 c cs hblank ih =>
    rw [scan, if_pos hblank] at h
    rcases List.mem_cons.1 h with rfl | h
    · exact ⟨TokenKind.noConfusion, TokenKind.noConfusion⟩
    · exact ih h
  | case3 c cs hblank hdigit ih =>
    rw [scan, if_neg hblank, if_pos hdigit] at h
    rcases List.mem_cons.1 h with rfl | h
    · refine ⟨TokenKind.noConfusion, fun _ => ?_⟩
      rw [String.toList_ofList, isRun, hdigit, List.all_takeWhile, Bool.and_self]
    · exact ih h
  | case4 cs name hblank hdigit ih =>
    rw [scan, if_neg hblank, if_neg hdigit, if_pos rfl] at h
    rcases List.mem_append.1 h with h | h
    · obtain ⟨hn, hm⟩ := kind_of_ofCommand? (Option.mem_toList.1 h)
      exact ⟨hm, fun hk => absurd hk hn⟩
    · exact ih h
  | case5 c cs hblank hdigit hslash ih =>
    rw [scan, if_neg hblank, if_neg hdigit, if_neg hslash] at h
    rcases List.mem_append.1 h with h | h
    · obtain ⟨hn, hm⟩ := kind_of_ofChar? (Option.mem_toList.1 h)
      exact ⟨hm, fun hk => absurd hk hn⟩
    · exact ih h

theorem leadingMixed?_eq_some {ts : List Token} {text : String} (h : leadingMixed? ts = some text) :
    ∃ w s n o d more, ts = ⟨.number, w⟩ :: ⟨.space, s⟩ :: ⟨.number, n⟩ :: ⟨.operator, o⟩ ::
      ⟨.number, d⟩ :: more ∧ text = w ++ "_" ++ n ++ "_" ++ d := by
  unfold leadingMixed? at h
  split at h
  · next w s n o d more =>
    split at h
    all_goals cases h
    exact ⟨w, s, n, o, d, more, rfl, rfl⟩
  · cases h

theorem spelt_of_mem_fuse {ts : List Token}
    (hts : ∀ t ∈ ts, t.kind ≠ .mixed ∧ (t.kind = .number → isRun t.text.toList = true)) :
    ∀ t ∈ fuse ts, Spelt t := by
  induction ts using fuse.induct with
  | case1 =>
    rw [fuse]
    simp
  | case2 t ts text hmixed ih =>
    rw [fuse, hmixed]
    obtain ⟨w, s, n, o, d, more, heq, rfl⟩ := leadingMixed?_eq_some hmixed
    intro u hu
    rcases List.mem_cons.1 hu with rfl | hu
    · rw [heq] at hts
      have hw := (hts ⟨.number, w⟩ (by simp)).2 rfl
      have hn := (hts ⟨.number, n⟩ (by simp)).2 rfl
      have hd := (hts ⟨.number, d⟩ (by simp)).2 rfl
      exact ⟨TokenKind.noConfusion, fun _ => ⟨w, n, d, hw, hn, hd, mixedParts_join hw hn hd⟩⟩
    · exact ih (fun v hv => hts v (List.mem_cons_of_mem t (List.mem_of_mem_drop hv))) u hu
  | case3 t ts hmixed hspace ih =>
    rw [fuse, hmixed]
    dsimp only
    rw [if_pos hspace]
    exact ih fun v hv => hts v (List.mem_cons_of_mem t hv)
  | case4 t ts hmixed hspace ih =>
    rw [fuse, hmixed]
    dsimp only
    rw [if_neg hspace]
    intro u hu
    rcases List.mem_cons.1 hu with rfl | hu
    · have hu := hts u List.mem_cons_self
      exact ⟨hu.2, fun hk => absurd hk hu.1⟩
    · exact ih (fun v hv => hts v (List.mem_cons_of_mem t hv)) u hu

theorem spelt_of_mem_lex {cs : List Char} : ∀ t ∈ lex cs, Spelt t :=
  spelt_of_mem_fuse fun _ => mem_scan

end Token
end FormulaMap

/-
Where the operators of a formula stand.

An `Occurrence` is an operator that is written in a text, with no backslash before it
that takes its first character.  It begins no run and continues none, so the text can be
cut before it and after it: it is one token between those of the text before it and
those of the text after it (`Occurrence.scan_respell`), and every operator token comes
from one (`written_of_scan`).
-/
import FormulaMap.Proofs.Formula.Cuts

namespace FormulaMap
namespace Token

/-! ## Pieces of one class -/

section
variable {p : Char → Bool} {cs rest : List Char}

theorem delimits_dropWhile (cs : List Char) : Delimits p (cs.dropWhile p) := by
  intro c ds heq
  have hhead := List.head?_dropWhile_not p cs
  rw [heq] at hhead
  exact hhead

theorem Delimits.of_append (h : Delimits p (cs ++ rest)) : Delimits p cs := by
  rintro c ds rfl
  exact h c (ds ++ rest) rfl

end

theorem scan_blanks {c : Char} {cs rest : List Char} (hcs : (c :: cs).all Text.isBlank = true)
    (hrest : Delimits Text.isBlank rest) :
    scan (c :: cs ++ rest) = ⟨.space, String.ofList (c :: cs)⟩ :: scan rest := by
  rw [List.all_cons, Bool.and_eq_true] at hcs
  rw [List.cons_append, scan_blank hcs.1, takeWhile_append_of_delimits hcs.2 hrest,
    dropWhile_append_of_delimits hcs.2 hrest]

/-! ## Spellings of operators -/

/-- A way to write an operator: a character or a command. -/
inductive Spelling where
  | glyph (c : Char) (known : isOperatorChar c = true)
  | command (name : List Char) (text : String) (known : ofCommand? name = some ⟨.operator, text⟩)

namespace Spelling

def chars : Spelling → List Char
  | glyph c _ => [c]
  | command name _ _ => '\\' :: name

/-- What the lexer makes of it. -/
def token : Spelling → Token
  | glyph c _ => ⟨.operator, String.singleton c⟩
  | command _ text _ => ⟨.operator, text⟩

/-- The canonical operator that it is a spelling of. -/
def symbol (s : Spelling) : String := normalizeOperator (String.ofList s.chars)

/-- The lexer reads it as the stroke of a fraction. -/
def isStroke (s : Spelling) : Bool := s.token.text == "/"

/-- What may come after it: a letter would become part of the name of a command. -/
def Fits : Spelling → List Char → Prop
  | glyph _ _, _ => True
  | command _ _ _, after => Delimits Text.isLetter after

theorem kind_token (s : Spelling) : s.token.kind = .operator := by
  cases s <;> rfl

theorem name_cases {name : List Char} {text : String}
    (h : ofCommand? name = some ⟨.operator, text⟩) :
    (name = "cdot".toList ∧ text = "*") ∨ (name = "times".toList ∧ text = "*") ∨
      (name = "div".toList ∧ text = "/") := by
  unfold ofCommand? at h
  split at h
  · cases h
  · next heq =>
    cases h
    exact .inl ⟨by rw [← heq, String.toList_ofList], rfl⟩
  · next heq =>
    cases h
    exact .inr (.inl ⟨by rw [← heq, String.toList_ofList], rfl⟩)
  · next heq =>
    cases h
    exact .inr (.inr ⟨by rw [← heq, String.toList_ofList], rfl⟩)
  · cases h

theorem mem_operatorChars {c : Char} (h : isOperatorChar c = true) : c ∈ operatorChars :=
  List.contains_iff_mem.1 h

/-- The lexer and the registry agree on the operator that is spelled. -/
theorem normalizeOperator_token (s : Spelling) : normalizeOperator s.token.text = s.symbol := by
  cases s with
  | glyph c _ => rfl
  | command name text known =>
    rcases name_cases known with ⟨rfl, rfl⟩ | ⟨rfl, rfl⟩ | ⟨rfl, rfl⟩
    all_goals simp only [token, symbol, chars]
    all_goals decide

theorem isMinusGlyph_glyph :
    ∀ c ∈ operatorChars, isMinusGlyph (String.singleton c) =
      (normalizeOperator (String.singleton c) == "-") :=
  Text.forall_mem_of_all (by decide)

/-- The signs are the spellings of subtraction. -/
theorem isMinusGlyph_token (s : Spelling) : isMinusGlyph s.token.text = (s.symbol == "-") := by
  cases s with
  | glyph c known => exact isMinusGlyph_glyph c (mem_operatorChars known)
  | command name text known =>
    rcases name_cases known with ⟨rfl, rfl⟩ | ⟨rfl, rfl⟩ | ⟨rfl, rfl⟩
    all_goals simp only [token, symbol, chars]
    all_goals decide

theorem ofChar?_operatorChar :
    ∀ c ∈ operatorChars, Text.isBlank c = false ∧ Text.isDigit c = false ∧ c ≠ '\\' ∧
      isNumeralChar c = false ∧ Text.isLetter c = false ∧
      ofChar? c = some ⟨.operator, String.singleton c⟩ :=
  Text.forall_mem_of_all (by decide +kernel)

/-- An operator is no part of a run of the text before it. -/
theorem parted (s : Spelling) (before after : List Char) : Parted before (s.chars ++ after) := by
  cases s with
  | glyph c known =>
    obtain ⟨hblank, -, -, hnumeral, hletter, -⟩ := ofChar?_operatorChar c (mem_operatorChars known)
    exact ⟨apart_of_not hblank _ _, apart_of_not hnumeral _ _, apart_of_not hletter _ _⟩
  | command name _ _ =>
    exact ⟨apart_of_not (by decide) _ _, apart_of_not (by decide) _ _,
      apart_of_not not_isLetter_backslash _ _⟩

theorem scan_chars (s : Spelling) {after : List Char} (h : s.Fits after) :
    scan (s.chars ++ after) = s.token :: scan after := by
  cases s with
  | glyph c known =>
    obtain ⟨hblank, hdigit, hslash, -, -, htoken⟩ :=
      ofChar?_operatorChar c (mem_operatorChars known)
    rw [chars, List.cons_append, List.nil_append, scan_char hblank hdigit hslash, htoken]
    rfl
  | command name text known =>
    have hletters : name.isEmpty = false ∧ name.all Text.isLetter = true := by
      rcases name_cases known with ⟨rfl, _⟩ | ⟨rfl, _⟩ | ⟨rfl, _⟩ <;> decide +kernel
    rw [chars, List.cons_append, scan_command hletters.1 hletters.2 h, known]
    rfl

end Spelling

/-! ## Occurrences -/

/-- An operator that is written in a text. -/
structure Occurrence (cs : List Char) where
  before : List Char
  spelling : Spelling
  after : List Char
  eq_append : cs = before ++ (spelling.chars ++ after)
  unescaped : escapes before = false
  fits : spelling.Fits after

namespace Occurrence

variable {cs : List Char}

/-- The text with another spelling of the operator, and nothing else changed. -/
def respell (o : Occurrence cs) (s : Spelling) : List Char := o.before ++ (s.chars ++ o.after)

theorem scan_respell (o : Occurrence cs) {s : Spelling} (h : s.Fits o.after) :
    scan (o.respell s) = scan o.before ++ s.token :: scan o.after := by
  rw [respell, scan_append (s.parted o.before o.after) o.unescaped, s.scan_chars h]

/-- The same operator with more text before it. -/
def prepend (o : Occurrence cs) (piece : List Char) (h : escapes (piece ++ o.before) = false) :
    Occurrence (piece ++ cs) where
  before := piece ++ o.before
  spelling := o.spelling
  after := o.after
  eq_append := by rw [List.append_assoc, ← o.eq_append]
  unescaped := h
  fits := o.fits

end Occurrence

/-! ## Every operator token is written -/

theorem ofChar?_eq_operator {c : Char} {t : Token} (h : ofChar? c = some t)
    (ht : t.kind = .operator) : isOperatorChar c = true ∧ t = ⟨.operator, String.singleton c⟩ := by
  unfold ofChar? at h
  split at h
  · next k hk =>
    cases h
    unfold bracket? at hk
    split at hk
    all_goals cases hk
    all_goals cases ht
  · split at h
    · next hc => exact ⟨hc, (Option.some.inj h).symm⟩
    · cases h

theorem toList_append_eq {α : Type} {o : Option α} {l ts us : List α} {t : α}
    (h : o.toList ++ l = ts ++ t :: us) :
    (o = some t ∧ ts = [] ∧ l = us) ∨ ∃ ts', ts = o.toList ++ ts' ∧ l = ts' ++ t :: us := by
  cases o with
  | none => exact .inr ⟨ts, rfl, h⟩
  | some a =>
    cases ts with
    | nil =>
      obtain ⟨rfl, rfl⟩ := List.cons.inj h
      exact .inl ⟨rfl, rfl, rfl⟩
    | cons b ts =>
      obtain ⟨rfl, hl⟩ := List.cons.inj h
      exact .inr ⟨ts, rfl, hl⟩

/-- The operator token `t` between `ts` and `us` is written in the text. -/
def Written (cs : List Char) (ts : List Token) (t : Token) (us : List Token) : Prop :=
  ∃ o : Occurrence cs, o.spelling.token = t ∧ scan o.before = ts ∧ scan o.after = us

section
variable {cs : List Char} {ts us : List Token} {t : Token}

theorem Written.prepend (h : Written cs ts t us) (piece : List Char) (front : List Token)
    (hpiece : ∀ before after, cs = before ++ after →
      escapes (piece ++ before) = escapes before ∧ scan (piece ++ before) = front ++ scan before) :
    Written (piece ++ cs) (front ++ ts) t us := by
  obtain ⟨o, rfl, rfl, rfl⟩ := h
  obtain ⟨hfree, hscan⟩ := hpiece o.before _ o.eq_append
  exact ⟨o.prepend piece (hfree.trans o.unescaped), rfl, hscan, rfl⟩

/-- A piece of one class makes one token that is not an operator, so the operator is
written after it. -/
theorem written_of_piece {p : Char → Bool} (hslash : p '\\' = false) {piece : List Char}
    (hpiece : piece.all p = true) {front : Token} (hfront : front.kind ≠ .operator)
    (hscan : ∀ rest, Delimits p rest → scan (piece ++ rest) = front :: scan rest)
    (hcs : Delimits p cs) (hrest : ∀ ts, scan cs = ts ++ t :: us → Written cs ts t us)
    (h : scan (piece ++ cs) = ts ++ t :: us) (ht : t.kind = .operator) :
    Written (piece ++ cs) ts t us := by
  rw [hscan cs hcs] at h
  cases ts with
  | nil =>
    rw [← (List.cons.inj h).1] at ht
    exact absurd ht hfront
  | cons t' ts =>
    obtain ⟨rfl, htail⟩ := List.cons.inj h
    refine (hrest ts htail).prepend piece [front] fun before after heq => ⟨?_, ?_⟩
    · exact escapes_append hslash hpiece before
    · rw [heq] at hcs
      exact hscan before hcs.of_append

/-- A command is the operator itself or stands before it. -/
theorem written_of_command {name : List Char} (hname : name.isEmpty = false)
    (hletters : name.all Text.isLetter = true) (hcs : Delimits Text.isLetter cs)
    (hrest : ∀ ts, scan cs = ts ++ t :: us → Written cs ts t us)
    (h : scan ('\\' :: (name ++ cs)) = ts ++ t :: us) (ht : t.kind = .operator) :
    Written ('\\' :: (name ++ cs)) ts t us := by
  rw [scan_command hname hletters hcs] at h
  rcases toList_append_eq h with ⟨hknown, rfl, rfl⟩ | ⟨ts, rfl, htail⟩
  · obtain ⟨kind, text⟩ := t
    subst ht
    exact ⟨⟨[], .command name text hknown, cs, rfl, rfl, hcs⟩, rfl, scan_nil, rfl⟩
  · refine (hrest ts htail).prepend ('\\' :: name) _ fun before after heq => ⟨?_, ?_⟩
    · cases name with
      | nil => exact absurd hname (by decide)
      | cons c name =>
        rw [List.all_cons, Bool.and_eq_true] at hletters
        exact escapes_append not_isLetter_backslash hletters.2 before
    · rw [heq] at hcs
      exact scan_command hname hletters hcs.of_append

/-- A backslash before something other than a letter takes it along. -/
theorem written_of_escape {c : Char} (hc : Text.isLetter c = false)
    (hrest : ∀ ts, scan cs = ts ++ t :: us → Written cs ts t us)
    (h : scan ('\\' :: c :: cs) = ts ++ t :: us) : Written ('\\' :: c :: cs) ts t us := by
  have hscan : ∀ rest, scan ('\\' :: c :: rest) = scan rest := by
    intro rest
    rw [scan_backslash, afterCommand, List.takeWhile_cons, hc]
    rfl
  rw [hscan] at h
  exact (hrest ts h).prepend ['\\', c] []
    fun before _ _ => ⟨rfl, hscan before⟩

theorem written_of_scan (ht : t.kind = .operator) :
    ∀ ts, scan cs = ts ++ t :: us → Written cs ts t us := by
  induction cs using scan.induct with
  | case1 =>
    intro ts h
    rw [scan_nil] at h
    exact absurd h (by simp)
  | case2 c cs hblank ih =>
    intro ts h
    have hblanks : (c :: cs.takeWhile Text.isBlank).all Text.isBlank = true := by
      rw [List.all_cons, hblank, List.all_takeWhile, Bool.and_self]
    rw [← List.takeWhile_append_dropWhile (p := Text.isBlank) (l := cs)] at h ⊢
    exact written_of_piece (by decide) hblanks TokenKind.noConfusion
      (fun _ => scan_blanks hblanks) (delimits_dropWhile cs) ih h ht
  | case3 c cs hblank hdigit ih =>
    intro ts h
    have hrun : isRun (c :: cs.takeWhile isNumeralChar) = true := by
      rw [isRun, hdigit, List.all_takeWhile, Bool.and_self]
    rw [← List.takeWhile_append_dropWhile (p := isNumeralChar) (l := cs)] at h ⊢
    exact written_of_piece (by decide) (List.all_eq_true.2 (isNumeralChar_of_mem_isRun hrun))
      TokenKind.noConfusion (fun _ => scan_run hrun) (delimits_dropWhile cs) ih h ht
  | case4 cs name hblank hdigit ih =>
    intro ts h
    cases hname : name.isEmpty with
    | false =>
      rw [dif_neg (by rw [hname]; exact Bool.false_ne_true)] at ih
      rw [← List.takeWhile_append_dropWhile (p := Text.isLetter) (l := cs)] at h ⊢
      exact written_of_command hname List.all_takeWhile (delimits_dropWhile cs) ih h ht
    | true =>
      rw [dif_pos hname] at ih
      cases cs with
      | nil =>
        have hnil : scan ['\\'] = [] := by
          rw [scan_backslash]
          exact scan_nil
        rw [hnil] at h
        exact absurd h (by simp)
      | cons c cs =>
        cases hc : Text.isLetter c with
        | false => exact written_of_escape hc ih h
        | true =>
          rw [show name = c :: cs.takeWhile Text.isLetter from List.takeWhile_cons_of_pos hc] at hname
          cases hname
  | case5 c cs hblank hdigit hslash ih =>
    intro ts h
    rw [Bool.not_eq_true] at hblank hdigit
    rw [scan_char hblank hdigit hslash] at h
    rcases toList_append_eq h with ⟨hc, rfl, rfl⟩ | ⟨ts, rfl, htail⟩
    · obtain ⟨hknown, rfl⟩ := ofChar?_eq_operator hc ht
      exact ⟨⟨[], .glyph c hknown, cs, rfl, rfl, trivial⟩, rfl, scan_nil, rfl⟩
    · exact (ih ts htail).prepend [c] (ofChar? c).toList
        fun before _ _ => ⟨escapes_cons hslash before, scan_char hblank hdigit hslash before⟩

end

end Token
end FormulaMap

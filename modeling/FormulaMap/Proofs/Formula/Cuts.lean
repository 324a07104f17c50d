/-
Cutting a formula in two.

The lexer looks past a piece of the text only where more of it could be of the same
class: blanks, the characters of a numeral and the letters of a command.  A text may
therefore be cut between two characters that are not of one such class (`Parted`),
unless a backslash that ends the first part takes the character after it
(`escapes`), and the tokens of the whole are those of the two parts one after the
other (`scan_append`).

Only the two characters at the cut are asked about.  What the lexer is in the middle
of when it comes there does not matter: the induction goes from the front, and every
rest of the first part that a token leaves behind still ends in the same character.
-/
import FormulaMap.Proofs.Formula.Lexing

namespace FormulaMap
namespace Token

/-! ## The backslash before a cut -/

/-- The text ends in a backslash that takes the character after it. -/
def escapes : List Char → Bool
  | [] => false
  | ['\\'] => true
  | '\\' :: _ :: cs => escapes cs
  | _ :: cs => escapes cs

theorem escapes_cons {c : Char} (hc : c ≠ '\\') (cs : List Char) :
    escapes (c :: cs) = escapes cs := by
  rw [escapes.eq_def]
  split
  · next heq => exact absurd heq (by simp)
  · next heq => exact absurd (List.cons.inj heq).1 hc
  · next heq => exact absurd (List.cons.inj heq).1 hc
  · next heq => rw [(List.cons.inj heq).2]

theorem escapes_append {p : Char → Bool} (hp : p '\\' = false) {cs : List Char}
    (hcs : cs.all p = true) (ds : List Char) : escapes (cs ++ ds) = escapes ds := by
  induction cs with
  | nil => rfl
  | cons c cs ih =>
    rw [List.all_cons, Bool.and_eq_true] at hcs
    have hc : c ≠ '\\' := by
      rintro rfl
      rw [hp] at hcs
      exact absurd hcs.1 Bool.false_ne_true
    rw [List.cons_append, escapes_cons hc, ih hcs.2]

theorem escapes_dropWhile {p : Char → Bool} (hp : p '\\' = false) (cs : List Char) :
    escapes (cs.dropWhile p) = escapes cs := by
  have happend := escapes_append hp (List.all_takeWhile (l := cs)) (cs.dropWhile p)
  rw [List.takeWhile_append_dropWhile] at happend
  exact happend.symm

/-- A text that takes the character after it has a backslash at its end. -/
theorem getLast?_of_escapes {cs : List Char} (h : escapes cs = true) :
    cs.getLast? = some '\\' := by
  induction cs using escapes.induct with
  | case1 => exact absurd h (by decide)
  | case2 => rfl
  | case3 d cs ih =>
    cases cs with
    | nil =>
      have hnil : escapes [] = true := h
      exact absurd hnil (by decide)
    | cons e cs => exact ih h
  | case4 c cs hone hmore ih =>
    have hc : c ≠ '\\' := by
      rintro rfl
      cases cs with
      | nil => exact hone rfl rfl
      | cons d cs => exact hmore d cs rfl rfl
    rw [escapes_cons hc] at h
    cases cs with
    | nil => exact absurd h (by decide)
    | cons d cs => exact ih h

/-! ## Runs before a cut -/

/-- The characters on the two sides of the cut are not both of the class. -/
def Apart (p : Char → Bool) (cs rest : List Char) : Prop :=
  ∀ c d ds, cs.getLast? = some c → rest = d :: ds → ¬ (p c = true ∧ p d = true)

section
variable {p : Char → Bool} {c d : Char} {cs ds rest : List Char}

theorem apart_of_not (h : p d = false) (cs ds : List Char) : Apart p cs (d :: ds) := by
  rintro c _ _ - ⟨⟩ ⟨-, hd⟩
  rw [h] at hd
  exact Bool.false_ne_true hd

theorem apart_of_getLast? (hc : cs.getLast? = some c) (hd : ds.head? = some d)
    (h : ¬ (p c = true ∧ p d = true)) : Apart p cs ds := by
  rintro c' d' ds' hc' rfl
  cases hc.symm.trans hc'
  cases hd
  exact h

/-- What a token leaves behind of the first part ends as the first part does. -/
theorem Apart.suffix (h : Apart p cs rest) (hs : ds <:+ cs) : Apart p ds rest := by
  intro c d more hc hrest
  obtain ⟨front, rfl⟩ := hs
  have hlast : (front ++ ds).getLast? = some c := by
    rw [List.getLast?_append, hc]
    rfl
  exact h c d more hlast hrest

theorem Apart.delimits (h : Apart p [c] rest) (hc : p c = true) : Delimits p rest := by
  intro d ds hrest
  have hd := h c d ds rfl hrest
  rwa [hc, eq_self, true_and, Bool.not_eq_true] at hd

/-- A run that `c` begins ends before the cut or at it. -/
theorem takeWhile_append (hc : p c = true) (h : Apart p (c :: cs) rest) :
    (cs ++ rest).takeWhile p = cs.takeWhile p := by
  induction cs generalizing c with
  | nil => exact takeWhile_append_of_delimits List.all_nil (h.delimits hc)
  | cons d cs ih =>
    rw [List.cons_append, List.takeWhile_cons, List.takeWhile_cons]
    split
    · next hd => rw [ih hd (h.suffix (List.suffix_cons c _))]
    · rfl

theorem dropWhile_append (hc : p c = true) (h : Apart p (c :: cs) rest) :
    (cs ++ rest).dropWhile p = cs.dropWhile p ++ rest := by
  induction cs generalizing c with
  | nil => exact dropWhile_append_of_delimits List.all_nil (h.delimits hc)
  | cons d cs ih =>
    rw [List.cons_append, List.dropWhile_cons, List.dropWhile_cons]
    split
    · next hd => exact ih hd (h.suffix (List.suffix_cons c _))
    · rfl

end

/-! ## Commands before a cut -/

/-- What is left after a backslash, its name or the one character that it takes. -/
def afterCommand (cs : List Char) : List Char :=
  if (cs.takeWhile Text.isLetter).isEmpty then cs.drop 1 else cs.dropWhile Text.isLetter

theorem scan_backslash (cs : List Char) :
    scan ('\\' :: cs) =
      (ofCommand? (cs.takeWhile Text.isLetter)).toList ++ scan (afterCommand cs) := by
  rw [scan, if_neg (by decide), if_neg (by decide), if_pos rfl]
  rfl

theorem afterCommand_cons_of_letter {c : Char} (hc : Text.isLetter c = true) (cs : List Char) :
    afterCommand (c :: cs) = cs.dropWhile Text.isLetter := by
  rw [afterCommand, List.takeWhile_cons_of_pos hc, List.dropWhile_cons_of_pos hc]
  rfl

theorem afterCommand_cons_of_not {c : Char} (hc : Text.isLetter c = false) (cs : List Char) :
    afterCommand (c :: cs) = cs := by
  rw [afterCommand, List.takeWhile_cons, hc]
  rfl

theorem suffix_afterCommand (cs : List Char) : afterCommand cs <:+ cs := by
  unfold afterCommand
  split
  · exact List.drop_suffix 1 cs
  · exact List.dropWhile_suffix _

theorem not_isLetter_backslash : Text.isLetter '\\' = false := by
  decide +kernel

theorem escapes_afterCommand (c : Char) (cs : List Char) :
    escapes (afterCommand (c :: cs)) = escapes cs := by
  cases hc : Text.isLetter c with
  | true => rw [afterCommand_cons_of_letter hc, escapes_dropWhile not_isLetter_backslash]
  | false => rw [afterCommand_cons_of_not hc]

/-- A backslash with a character after it makes the same token whatever follows the cut,
and leaves the same behind. -/
theorem scan_command_append {c : Char} {cs rest : List Char}
    (h : Apart Text.isLetter (c :: cs) rest) :
    scan ('\\' :: (c :: cs ++ rest)) =
      (ofCommand? ((c :: cs).takeWhile Text.isLetter)).toList ++
        scan (afterCommand (c :: cs) ++ rest) := by
  rw [scan_backslash, List.cons_append]
  cases hc : Text.isLetter c with
  | true =>
    rw [List.takeWhile_cons_of_pos hc, List.takeWhile_cons_of_pos hc, takeWhile_append hc h,
      afterCommand_cons_of_letter hc, afterCommand_cons_of_letter hc, dropWhile_append hc h]
  | false =>
    rw [List.takeWhile_cons, List.takeWhile_cons, hc, afterCommand_cons_of_not hc,
      afterCommand_cons_of_not hc]
    rfl

/-! ## Cutting -/

/-- No run goes over the cut. -/
structure Parted (cs rest : List Char) : Prop where
  blank : Apart Text.isBlank cs rest
  numeral : Apart isNumeralChar cs rest
  letter : Apart Text.isLetter cs rest

theorem Parted.suffix {cs ds rest : List Char} (h : Parted cs rest) (hs : ds <:+ cs) :
    Parted ds rest where
  blank := h.blank.suffix hs
  numeral := h.numeral.suffix hs
  letter := h.letter.suffix hs

theorem suffix_cons_dropWhile (p : Char → Bool) (c : Char) (cs : List Char) :
    cs.dropWhile p <:+ c :: cs :=
  (List.dropWhile_suffix p).trans (List.suffix_cons c cs)

/-- A text is cut in two where no run goes over the cut and no backslash is open. -/
theorem scan_append {cs rest : List Char} (h : Parted cs rest) (hcs : escapes cs = false) :
    scan (cs ++ rest) = scan cs ++ scan rest := by
  induction cs using scan.induct with
  | case1 => rw [scan_nil, List.nil_append, List.nil_append]
  | case2 c cs hblank ih =>
    have hc : c ≠ '\\' := by
      rintro rfl
      exact absurd hblank (by decide)
    rw [escapes_cons hc, ← escapes_dropWhile (p := Text.isBlank) (by decide)] at hcs
    rw [List.cons_append, scan_blank hblank, scan_blank hblank, takeWhile_append hblank h.blank,
      dropWhile_append hblank h.blank, ih (h.suffix (suffix_cons_dropWhile _ c cs)) hcs,
      List.cons_append]
  | case3 c cs _ hdigit ih =>
    have hc : c ≠ '\\' := by
      rintro rfl
      exact absurd hdigit (by decide)
    have hnumeral := isNumeralChar_of_isDigit hdigit
    rw [escapes_cons hc, ← escapes_dropWhile (p := isNumeralChar) (by decide)] at hcs
    rw [List.cons_append, scan_digit hdigit, scan_digit hdigit, takeWhile_append hnumeral h.numeral,
      dropWhile_append hnumeral h.numeral, ih (h.suffix (suffix_cons_dropWhile _ c cs)) hcs,
      List.cons_append]
  | case4 cs name _ _ ih =>
    cases cs with
    | nil => exact absurd hcs (by decide)
    | cons c cs =>
      have hcommand := h.suffix (List.suffix_cons '\\' (c :: cs))
      have hrec : scan (afterCommand (c :: cs) ++ rest) =
          scan (afterCommand (c :: cs)) ++ scan rest :=
        ih (hcommand.suffix (suffix_afterCommand _)) ((escapes_afterCommand c cs).trans hcs)
      rw [List.cons_append, scan_command_append hcommand.letter, hrec, scan_backslash,
        List.append_assoc]
  | case5 c cs hblank hdigit hslash ih =>
    rw [escapes_cons hslash] at hcs
    rw [Bool.not_eq_true] at hblank hdigit
    rw [List.cons_append, scan_char hblank hdigit hslash, scan_char hblank hdigit hslash,
      ih (h.suffix (List.suffix_cons c cs)) hcs, List.append_assoc]

/-- Tokens are found locally: between a character that is no backslash and one that is not
of the same class, a formula can be cut, and its two parts have their tokens alone. -/
theorem ofString_append {a b : String} {c d : Char} (hc : a.toList.getLast? = some c)
    (hd : b.toList.head? = some d) (hslash : c ≠ '\\')
    (hblank : ¬ (Text.isBlank c = true ∧ Text.isBlank d = true))
    (hnumeral : ¬ (isNumeralChar c = true ∧ isNumeralChar d = true))
    (hletter : ¬ (Text.isLetter c = true ∧ Text.isLetter d = true)) :
    ofString (a ++ b) = ofString a ++ ofString b := by
  have hparted : Parted a.toList b.toList :=
    ⟨apart_of_getLast? hc hd hblank, apart_of_getLast? hc hd hnumeral,
      apart_of_getLast? hc hd hletter⟩
  have hescapes : escapes a.toList = false := by
    rw [Bool.eq_false_iff]
    intro h
    exact hslash (Option.some.inj (hc.symm.trans (getLast?_of_escapes h)))
  rw [ofString, String.toList_append, scan_append hparted hescapes, ofString, ofString]

/-- A cut between the name of a command and a numeral that begins with its point. -/
theorem ofString_append_command :
    ("2.5\\,x\\cdot".toList.getLast? = some 't' ∧ ".5\\frac".toList.head? = some '.') ∧
      ofString ("2.5\\,x\\cdot" ++ ".5\\frac") =
        ofString "2.5\\,x\\cdot" ++ ofString ".5\\frac" :=
  ⟨⟨by decide, by decide⟩,
    ofString_append (c := 't') (d := '.') (by decide) (by decide) (by decide) (by decide +kernel)
      (by decide +kernel) (by decide +kernel)⟩

/-- A backslash at the cut would take the letters after it. -/
example : ofString ("2\\" ++ "div") ≠ ofString "2\\" ++ ofString "div" := by decide +kernel

end Token
end FormulaMap

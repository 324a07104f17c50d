/-
Tokens that are typeset as one glyph run.

Such a token is a number in ASCII digits, a single operator character, or a round or
square bracket.  An element that shows it is a node of one kind, which can be read off
the token (`category_of_isGlyph`), and is not cut into segments.  What looks at kinds only
can therefore look at the tokens.
-/
import FormulaMap.Proofs.Surface.Building

namespace FormulaMap

/-! ## Characters -/

namespace Text

/-- The characters of glyphs, with some that are between them. -/
def glyphChars : CharSet :=
  [(40, 58), (91, 91), (93, 93), (183, 183), (215, 215), (247, 247), (8722, 8722), (8727, 8727),
   (8901, 8901)]

theorem isBlank_of_glyphChars {c : Char} (h : glyphChars.has c = true) : isBlank c = false :=
  CharSet.not_has_of_apart (by decide) h

theorem has_of_isGreek {c : Char} (h : isGreek c = true) :
    CharSet.has [(0x370, 0x3FF), (0x1F00, 0x1FFF)] c = true := by
  rw [CharSet.has_iff]
  simpa [isGreek] using h

theorem isGreek_of_glyphChars {c : Char} (h : glyphChars.has c = true) : isGreek c = false := by
  have hapart : CharSet.has [(0x370, 0x3FF), (0x1F00, 0x1FFF)] c = false :=
    CharSet.not_has_of_apart (by decide) h
  refine Bool.eq_false_iff.2 fun hgreek => ?_
  rw [has_of_isGreek hgreek] at hapart
  exact Bool.noConfusion hapart

theorem glyphChars_of_isAsciiDigit {c : Char} (h : isAsciiDigit c = true) :
    glyphChars.has c = true := by
  rw [isAsciiDigit, Bool.and_eq_true, decide_eq_true_eq, decide_eq_true_eq] at h
  have hlow : 48 ≤ c.toNat := h.1
  have hhigh : c.toNat ≤ 57 := h.2
  exact (CharSet.has_iff _ _).2 ⟨(40, 58), by decide, by omega, by omega⟩

theorem glyphChars_of_isOperatorChar {c : Char} (h : isOperatorChar c = true) :
    glyphChars.has c = true := by
  have hall : ∀ c ∈ operatorChars, glyphChars.has c = true := forall_mem_of_all (by decide)
  exact hall c (List.contains_iff_mem.1 h)

theorem trimChars_of_glyphChars {cs : List Char} (h : ∀ c ∈ cs, glyphChars.has c = true) :
    trimChars cs = cs := by
  have hdrop : ∀ ds : List Char, (∀ c ∈ ds, glyphChars.has c = true) →
      ds.dropWhile blanks.has = ds := by
    intro ds hds
    cases ds with
    | nil => rfl
    | cons d ds =>
      have hblank : blanks.has d = false := isBlank_of_glyphChars (hds d List.mem_cons_self)
      rw [List.dropWhile_cons, hblank, if_neg Bool.false_ne_true]
  rw [trimChars, trimOf, hdrop cs h, hdrop _ (fun c hc => h c (List.mem_reverse.1 hc)),
    List.reverse_reverse]

end Text

namespace Token

open Text

/-- A token that is typeset as one run of glyphs. -/
def isGlyph (t : Token) : Bool :=
  match t.kind with
  | .number => isNumber t.text.toList || Category.isDecimal t.text.toList
  | .operator => Category.isSign t.text.toList
  | .openParen => t.text == "(" || t.text == "["
  | .closeParen => t.text == ")" || t.text == "]"
  | _ => false

/-- The category of an element that shows the token. -/
def category (t : Token) : Category :=
  match t.kind with
  | .number => .num
  | .operator => .binaryOp
  | .openParen => .parenOpen
  | .closeParen => .parenClose
  | _ => .other

/-- The class of a typeset symbol without a meaning of its own. -/
def glyphClass : String := "mord"

variable {t : Token}

theorem chars_of_isNumber {cs : List Char} (h : isNumber cs = true) :
    ∀ c ∈ cs, isAsciiDigit c = true := by
  rw [isNumber, Bool.and_eq_true, List.all_eq_true] at h
  exact h.2

theorem chars_of_isDecimal {cs : List Char} (h : Category.isDecimal cs = true) :
    ∀ c ∈ cs, isAsciiDigit c = true ∨ c = '.' := by
  rw [Category.isDecimal] at h
  split at h
  · next rest hdrop =>
    rw [Bool.and_eq_true] at h
    intro c hc
    rw [← List.takeWhile_append_dropWhile (p := isAsciiDigit) (l := cs), hdrop] at hc
    rcases List.mem_append.1 hc with hc | hc
    · exact Or.inl (chars_of_isNumber h.1 c hc)
    · rcases List.mem_cons.1 hc with rfl | hc
      · exact Or.inr rfl
      · exact Or.inl (chars_of_isNumber h.2 c hc)
  · exact absurd h Bool.false_ne_true

theorem chars_of_number (h : t.isGlyph = true) (hk : t.kind = .number) :
    ∀ c ∈ t.text.toList, isAsciiDigit c = true ∨ c = '.' := by
  rw [isGlyph, hk, Bool.or_eq_true] at h
  rcases h with h | h
  · exact fun c hc => Or.inl (chars_of_isNumber h c hc)
  · exact chars_of_isDecimal h

theorem exists_digit_of_number (h : t.isGlyph = true) (hk : t.kind = .number) :
    ∃ c ∈ t.text.toList, isAsciiDigit c = true := by
  have hfirst : ∀ {cs : List Char}, isNumber cs = true → ∃ c ∈ cs, isAsciiDigit c = true := by
    intro cs hcs
    cases cs with
    | nil => exact absurd hcs (by decide)
    | cons c cs => exact ⟨c, List.mem_cons_self, chars_of_isNumber hcs c List.mem_cons_self⟩
  rw [isGlyph, hk, Bool.or_eq_true] at h
  rcases h with h | h
  · exact hfirst h
  · rw [Category.isDecimal] at h
    split at h
    · rw [Bool.and_eq_true] at h
      obtain ⟨c, hc, hdigit⟩ := hfirst h.1
      exact ⟨c, (List.takeWhile_sublist _).subset hc, hdigit⟩
    · exact absurd h Bool.false_ne_true

theorem toList_of_operator (h : t.isGlyph = true) (hk : t.kind = .operator) :
    ∃ c ∈ operatorChars, t.text = String.singleton c := by
  have hsign : Category.isSign t.text.toList = true := by simpa only [isGlyph, hk] using h
  unfold Category.isSign at hsign
  split at hsign
  · next c heq =>
    refine ⟨c, List.contains_iff_mem.1 hsign, ?_⟩
    rw [← String.toList_inj, heq, String.toList_singleton]
  · exact absurd hsign Bool.false_ne_true

theorem text_of_openParen (h : t.isGlyph = true) (hk : t.kind = .openParen) :
    t.text = "(" ∨ t.text = "[" := by
  rw [isGlyph, hk] at h
  simpa using h

theorem text_of_closeParen (h : t.isGlyph = true) (hk : t.kind = .closeParen) :
    t.text = ")" ∨ t.text = "]" := by
  rw [isGlyph, hk] at h
  simpa using h

/-- Numbers, operators and round or square brackets. -/
theorem kind_of_isGlyph (h : t.isGlyph = true) :
    t.kind = .number ∨ t.kind = .operator ∨ t.kind = .openParen ∨ t.kind = .closeParen := by
  rw [isGlyph] at h
  cases hk : t.kind <;> rw [hk] at h <;> simp at h ⊢

theorem chars_of_isGlyph (h : t.isGlyph = true) :
    ∀ c ∈ t.text.toList, glyphChars.has c = true := by
  rcases kind_of_isGlyph h with hk | hk | hk | hk
  · intro c hc
    rcases chars_of_number h hk c hc with hdigit | rfl
    · exact glyphChars_of_isAsciiDigit hdigit
    · decide
  · obtain ⟨c, hc, htext⟩ := toList_of_operator h hk
    rw [htext, String.toList_singleton]
    intro d hd
    rw [List.mem_singleton.1 hd]
    exact glyphChars_of_isOperatorChar (List.contains_iff_mem.2 hc)
  · rcases text_of_openParen h hk with htext | htext <;> rw [htext] <;>
      exact forall_mem_of_all (by decide)
  · rcases text_of_closeParen h hk with htext | htext <;> rw [htext] <;>
      exact forall_mem_of_all (by decide)

theorem trimChars_of_isGlyph (h : t.isGlyph = true) : trimChars t.text.toList = t.text.toList :=
  trimChars_of_glyphChars (chars_of_isGlyph h)

theorem category_of_isGlyph (h : t.isGlyph = true) :
    Category.of [glyphClass] t.text = t.category := by
  rcases kind_of_isGlyph h with hk | hk | hk | hk
  · rw [category, hk, Category.of, trimChars_of_isGlyph h]
    rw [isGlyph, hk] at h
    rw [if_pos h]
  · obtain ⟨c, hc, htext⟩ := toList_of_operator h hk
    have hall : ∀ c ∈ operatorChars, Category.of [glyphClass] (String.singleton c) = .binaryOp :=
      forall_mem_of_all (by decide +kernel)
    rw [category, hk, htext]
    exact hall c hc
  · rw [category, hk]
    rcases text_of_openParen h hk with htext | htext <;> rw [htext] <;> decide +kernel
  · rw [category, hk]
    rcases text_of_closeParen h hk with htext | htext <;> rw [htext] <;> decide +kernel

theorem not_isOperatorChar_of_number {c : Char} (h : isAsciiDigit c = true ∨ c = '.') :
    isOperatorChar c = false := by
  have hall : ∀ d ∈ operatorChars, isAsciiDigit d = false ∧ d ≠ '.' :=
    forall_mem_of_all (by decide)
  refine Bool.eq_false_iff.2 fun hc => ?_
  obtain ⟨hdigit, hpoint⟩ := hall c (List.contains_iff_mem.1 hc)
  rcases h with h | h
  · exact absurd (hdigit.symm.trans h) Bool.false_ne_true
  · exact hpoint h

/-- A glyph run is not cut into segments. -/
theorem not_isMixedContent_of_isGlyph (h : t.isGlyph = true) :
    Category.isMixedContent t.text.toList = false := by
  rcases kind_of_isGlyph h with hk | hk | hk | hk
  · rw [Category.isMixedContent, Category.hasOperatorChar, Bool.and_eq_false_iff]
    refine Or.inr (List.any_eq_false.2 fun c hc => ?_)
    rw [not_isOperatorChar_of_number (chars_of_number h hk c hc)]
    exact Bool.false_ne_true
  · obtain ⟨c, hc, htext⟩ := toList_of_operator h hk
    have hall : ∀ c ∈ operatorChars,
        Category.isMixedContent (String.singleton c).toList = false :=
      forall_mem_of_all (by decide +kernel)
    rw [htext]
    exact hall c hc
  · rcases text_of_openParen h hk with htext | htext <;> rw [htext] <;> decide
  · rcases text_of_closeParen h hk with htext | htext <;> rw [htext] <;> decide

theorem not_hasGreek_of_isGlyph (h : t.isGlyph = true) :
    Category.hasGreek t.text.toList = false :=
  List.any_eq_false.2 fun c hc => by
    rw [isGreek_of_glyphChars (chars_of_isGlyph h c hc)]
    exact Bool.false_ne_true

theorem kind_of_isDecimal (h : t.isGlyph = true) (hdecimal : Category.isDecimal t.text.toList = true) :
    t.kind = .number := by
  rcases kind_of_isGlyph h with hk | hk | hk | hk
  · exact hk
  · obtain ⟨c, hc, htext⟩ := toList_of_operator h hk
    have hall : ∀ c ∈ operatorChars, Category.isDecimal (String.singleton c).toList = false :=
      forall_mem_of_all (by decide +kernel)
    rw [htext, hall c hc] at hdecimal
    exact absurd hdecimal Bool.false_ne_true
  · rcases text_of_openParen h hk with htext | htext <;> rw [htext] at hdecimal <;>
      exact absurd hdecimal (by decide)
  · rcases text_of_closeParen h hk with htext | htext <;> rw [htext] at hdecimal <;>
      exact absurd hdecimal (by decide)

/-- Only an operator shows a minus glyph. -/
theorem kind_of_isMinusGlyph (h : t.isGlyph = true) (hminus : isMinusGlyph t.text = true) :
    t.kind = .operator := by
  have htext : t.text = "-" ∨ t.text = "−" := by simpa [isMinusGlyph] using hminus
  rcases kind_of_isGlyph h with hk | hk | hk | hk
  · have hchars := chars_of_number h hk
    rcases htext with htext | htext <;> rw [htext] at hchars <;>
      exact absurd (hchars _ List.mem_cons_self) (by decide)
  · exact hk
  · rcases text_of_openParen h hk with hopen | hopen <;> rw [hopen] at htext <;>
      exact absurd htext (by decide)
  · rcases text_of_closeParen h hk with hclose | hclose <;> rw [hclose] at htext <;>
      exact absurd htext (by decide)

/-! ## Kinds -/

/-- The kind of a refined node that shows the token and is no minus. -/
def refinedKind (t : Token) : Kind :=
  if Category.isDecimal t.text.toList then .decimal else t.category.kind

theorem refinedKind_of_number (hk : t.kind = .number) : t.refinedKind.isNumeric = true := by
  rw [refinedKind]
  split
  · rfl
  · rw [category, hk]
    rfl

theorem refinedKind_of_ne_number (h : t.isGlyph = true) (hk : t.kind ≠ .number) :
    t.refinedKind = t.category.kind :=
  if_neg fun hdecimal => hk (kind_of_isDecimal h hdecimal)

/-! ## What is seen of a node -/

theorem not_isEmpty (h : t.isGlyph = true) : t.text.isEmpty = false := by
  refine Bool.eq_false_iff.2 fun hempty => ?_
  have htext : t.text = "" := String.isEmpty_iff.1 hempty
  rw [isGlyph, htext] at h
  cases hk : t.kind <;> rw [hk] at h <;> exact absurd h (by decide)

theorem atomic_category (h : t.isGlyph = true) : t.category.atomic = true := by
  rw [category]
  rcases kind_of_isGlyph h with hk | hk | hk | hk <;> rw [hk] <;> rfl

end Token

namespace Node

/-- What of a node is told by the token that it shows. -/
structure Face where
  text : String
  kind : Kind
  atom : Bool
  marks : Marks

def face {α : Type} (n : Node α) : Face := ⟨n.text, n.kind, n.atom, n.marks⟩

end Node

/-- What is seen of a node of this kind that shows the token. -/
def Token.face (t : Token) (k : Kind) : Node.Face := ⟨t.text, k, true, .none⟩

end FormulaMap

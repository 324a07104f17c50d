/-
Another spelling of an operator, and the expression that is read.

The reader sees of an operator the operation that it stands for and whether it is a
sign, so tokens that are alike in this are read alike (`Reads.alike`).  The one place
where the text of an operator itself counts is the pass that makes mixed numbers: it
asks for the stroke `/` between the second and the third number.  `Joins` is that
place, and `fuse_operator` says that the pass treats an operator everywhere else as
two texts with the operator between them.
-/
import Mathlib.Data.List.Forall2
import FormulaMap.Proofs.Formula.Occurrences
import FormulaMap.Proofs.Formula.Yield

namespace FormulaMap
namespace Token

/-! ## Tokens that are read alike -/

/-- The same token, or two operators that stand for the same operation and are both
signs or neither. -/
structure Alike (t u : Token) : Prop where
  kind : t.kind = u.kind
  text : t.kind ≠ .operator → t.text = u.text
  symbol : t.kind = .operator → normalizeOperator t.text = normalizeOperator u.text
  sign : t.kind = .operator → isMinusGlyph t.text = isMinusGlyph u.text

theorem Alike.refl (t : Token) : Alike t t := ⟨rfl, fun _ => rfl, fun _ => rfl, fun _ => rfl⟩

section
variable {t u : Token} {ts us : List Token}

theorem Alike.symm (h : Alike t u) : Alike u t where
  kind := h.kind.symm
  text hk := (h.text (h.kind ▸ hk)).symm
  symbol hk := (h.symbol (h.kind ▸ hk)).symm
  sign hk := (h.sign (h.kind ▸ hk)).symm

theorem Alike.operation? (h : Alike t u) : t.operation? = u.operation? := by
  unfold Token.operation?
  rw [← h.kind]
  split
  · next hk => rw [h.symbol hk]
  · rfl

/-- Tokens that are alike one by one. -/
abbrev AllAlike : List Token → List Token → Prop := List.Forall₂ Alike

theorem AllAlike.refl (ts : List Token) : AllAlike ts ts :=
  List.forall₂_same.2 fun t _ => .refl t

theorem AllAlike.symm (h : AllAlike ts us) : AllAlike us ts :=
  (h.imp fun _ _ ht => ht.symm).flip

end

/-! ## Operators and mixed numbers -/

/-- The stroke between the numerator and the denominator of a mixed number. -/
def stroke : Token := ⟨.operator, "/"⟩

/-- The pass over mixed numbers, having the tokens `ts` before an operator and `us` after
it, comes to the operator as the stroke of a mixed number. -/
inductive Joins : List Token → List Token → Prop where
  | here (w s n d : String) (us : List Token) :
      Joins [⟨.number, w⟩, ⟨.space, s⟩, ⟨.number, n⟩] (⟨.number, d⟩ :: us)
  | after (w s n d : String) {ts us : List Token} :
      Joins ts us →
      Joins (⟨.number, w⟩ :: ⟨.space, s⟩ :: ⟨.number, n⟩ :: stroke :: ⟨.number, d⟩ :: ts) us
  | past {t : Token} {ts us : List Token} :
      leadingMixed? (t :: ts) = none → Joins ts us → Joins (t :: ts) us

theorem eq_of_leadingMixed? {ts : List Token} {text : String} (h : leadingMixed? ts = some text) :
    ∃ w s n d more, ts = ⟨.number, w⟩ :: ⟨.space, s⟩ :: ⟨.number, n⟩ :: stroke ::
      ⟨.number, d⟩ :: more := by
  unfold leadingMixed? at h
  split at h
  · next w s n o d more =>
    split at h
    · next ho =>
      rw [beq_iff_eq] at ho
      exact ⟨w, s, n, d, more, by rw [ho]; rfl⟩
    · cases h
  · cases h

/-- A mixed number that begins before an operator and does not end before it has the
operator as its stroke. -/
theorem eq_of_leadingMixed?_operator {t : Token} {ts us : List Token} {o text : String}
    (hbefore : leadingMixed? (t :: ts) = none)
    (h : leadingMixed? (t :: (ts ++ ⟨.operator, o⟩ :: us)) = some text) :
    o = "/" ∧ ∃ w s n d more, t :: ts = [⟨.number, w⟩, ⟨.space, s⟩, ⟨.number, n⟩] ∧
      us = ⟨.number, d⟩ :: more := by
  obtain ⟨w, s, n, d, more, heq⟩ := eq_of_leadingMixed? h
  match ts, heq with
  | [], heq => simp at heq
  | [_], heq => simp at heq
  | [_, _], heq =>
    simp only [List.cons_append, List.nil_append, List.cons.injEq, stroke, Token.mk.injEq,
      true_and] at heq
    obtain ⟨rfl, rfl, rfl, rfl, rfl⟩ := heq
    exact ⟨rfl, w, s, n, d, more, rfl, rfl⟩
  | [_, _, _], heq => simp [stroke] at heq
  | _ :: _ :: _ :: _ :: ts, heq =>
    simp only [List.cons_append, List.cons.injEq] at heq
    obtain ⟨rfl, rfl, rfl, rfl, rfl, rfl⟩ := heq
    exact absurd hbefore (by simp [leadingMixed?, stroke])

theorem leadingMixed?_operator {t : Token} {ts us : List Token} {o : String}
    (hbefore : leadingMixed? (t :: ts) = none) (h : ¬ (o = "/" ∧ Joins (t :: ts) us)) :
    leadingMixed? (t :: (ts ++ ⟨.operator, o⟩ :: us)) = none := by
  rw [Option.eq_none_iff_forall_not_mem]
  intro text htext
  obtain ⟨ho, w, s, n, d, more, heq, rfl⟩ := eq_of_leadingMixed?_operator hbefore htext
  rw [heq] at h
  exact h ⟨ho, .here w s n d more⟩

theorem fuse_mixed (w s n d : String) (ts : List Token) :
    fuse (⟨.number, w⟩ :: ⟨.space, s⟩ :: ⟨.number, n⟩ :: stroke :: ⟨.number, d⟩ :: ts) =
      ⟨.mixed, w ++ "_" ++ n ++ "_" ++ d⟩ :: fuse ts := by
  rw [fuse]
  rfl

theorem fuse_of_space {t : Token} (h : t.kind = .space) (ts : List Token) :
    fuse (t :: ts) = fuse ts := by
  obtain ⟨kind, text⟩ := t
  subst h
  exact fuse_space text ts

/-- Away from the stroke of a mixed number an operator stays as it is, and the tokens
on both sides of it are joined by themselves. -/
theorem fuse_operator {ts us : List Token} {o : String} (h : ¬ (o = "/" ∧ Joins ts us)) :
    fuse (ts ++ ⟨.operator, o⟩ :: us) = fuse ts ++ ⟨.operator, o⟩ :: fuse us := by
  induction ts using fuse.induct with
  | case1 =>
    rw [List.nil_append, fuse_cons TokenKind.noConfusion (leadingMixed?_of_kind
      TokenKind.noConfusion), fuse, List.nil_append]
  | case2 t ts text hmixed ih =>
    obtain ⟨w, s, n, d, more, heq⟩ := eq_of_leadingMixed? hmixed
    obtain ⟨rfl, rfl⟩ := List.cons.inj heq
    have hmore : fuse (more ++ ⟨.operator, o⟩ :: us) = fuse more ++ ⟨.operator, o⟩ :: fuse us :=
      ih fun hj => h ⟨hj.1, .after w s n d hj.2⟩
    simp only [List.cons_append, fuse_mixed, hmore]
  | case3 t ts hmixed hspace ih =>
    rw [List.cons_append, fuse_of_space hspace, fuse_of_space hspace]
    exact ih fun hj => h ⟨hj.1, .past hmixed hj.2⟩
  | case4 t ts hmixed hspace ih =>
    have hmore := ih fun hj => h ⟨hj.1, .past hmixed hj.2⟩
    rw [fuse_cons hspace hmixed, List.cons_append,
      fuse_cons hspace (leadingMixed?_operator hmixed h), hmore, List.cons_append]

/-- The two ways of reading an operator where it is the stroke of a mixed number differ
from each other. -/
theorem not_alike_of_joins {ts us : List Token} (h : Joins ts us) {o : String} (ho : o ≠ "/") :
    ¬ AllAlike (fuse (ts ++ stroke :: us)) (fuse (ts ++ ⟨.operator, o⟩ :: us)) := by
  rw [fuse_operator fun hj => ho hj.1]
  induction h with
  | here w s n d us =>
    rw [List.cons_append, List.cons_append, List.cons_append, List.nil_append, fuse_mixed,
      fuse_cons TokenKind.noConfusion rfl]
    rintro (_ | ⟨halike, -⟩)
    exact TokenKind.noConfusion halike.kind
  | after w s n d _ ih =>
    simp only [List.cons_append, fuse_mixed]
    rintro (_ | ⟨-, halike⟩)
    exact ih halike
  | @past t ts us hmixed hj ih =>
    by_cases hspace : t.kind = .space
    · rw [List.cons_append, fuse_of_space hspace, fuse_of_space hspace]
      exact ih
    · have hnone : leadingMixed? (t :: (ts ++ stroke :: us)) = none := by
        rw [Option.eq_none_iff_forall_not_mem]
        intro text htext
        obtain ⟨-, w, s, n, d, more, heq, -⟩ := eq_of_leadingMixed?_operator hmixed htext
        obtain ⟨-, rfl⟩ := List.cons.inj heq
        obtain - | - | ⟨-, - | - | ⟨-, ⟨⟩⟩⟩ := hj
      rw [List.cons_append, fuse_cons hspace hnone, fuse_cons hspace hmixed]
      rintro (_ | ⟨-, halike⟩)
      exact ih halike

/-! ## Another spelling in a text -/

theorem Spelling.eq_operator (s : Spelling) : s.token = ⟨.operator, s.token.text⟩ := by
  cases s <;> rfl

theorem Spelling.alike_token {s s' : Spelling} (h : s.symbol = s'.symbol) :
    Alike s.token s'.token where
  kind := s.kind_token.trans s'.kind_token.symm
  text hk := absurd s.kind_token hk
  symbol _ := by rw [s.normalizeOperator_token, s'.normalizeOperator_token, h]
  sign _ := by rw [s.isMinusGlyph_token, s'.isMinusGlyph_token, h]

namespace Occurrence

variable {cs : List Char}

/-- The operator stands where the pass over mixed numbers asks for their stroke. -/
def InMixed (o : Occurrence cs) : Prop := Joins (scan o.before) (scan o.after)

theorem lex_respell (o : Occurrence cs) {s : Spelling} (hfits : s.Fits o.after) :
    lex (o.respell s) = fuse (scan o.before ++ ⟨.operator, s.token.text⟩ :: scan o.after) := by
  rw [lex, o.scan_respell hfits, ← s.eq_operator]

theorem lex_respell_of_not (o : Occurrence cs) {s : Spelling} (hfits : s.Fits o.after)
    (h : ¬ (s.isStroke = true ∧ o.InMixed)) :
    lex (o.respell s) = fuse (scan o.before) ++ s.token :: fuse (scan o.after) := by
  rw [Spelling.isStroke, beq_iff_eq] at h
  rw [o.lex_respell hfits, fuse_operator h, ← s.eq_operator]

section
variable (o : Occurrence cs) {s s' : Spelling} (hfits : s.Fits o.after) (hfits' : s'.Fits o.after)
include hfits hfits'

theorem alike_respell (hsymbol : s.symbol = s'.symbol)
    (h : s.isStroke = s'.isStroke ∨ ¬ o.InMixed) :
    AllAlike (lex (o.respell s)) (lex (o.respell s')) := by
  by_cases hmixed : s.isStroke = true ∧ o.InMixed
  · have hstroke : s'.isStroke = true := by
      rcases h with h | h
      · rw [← h, hmixed.1]
      · exact absurd hmixed.2 h
    have htext : s.token.text = s'.token.text :=
      (beq_iff_eq.1 hmixed.1).trans (beq_iff_eq.1 hstroke).symm
    rw [o.lex_respell hfits, o.lex_respell hfits', htext]
    exact AllAlike.refl _
  · have hmixed' : ¬ (s'.isStroke = true ∧ o.InMixed) := by
      rintro ⟨hstroke, hin⟩
      rcases h with h | h
      · exact hmixed ⟨h.trans hstroke, hin⟩
      · exact h hin
    rw [o.lex_respell_of_not hfits hmixed, o.lex_respell_of_not hfits' hmixed']
    exact List.rel_append (AllAlike.refl _) (.cons (Spelling.alike_token hsymbol) (AllAlike.refl _))

theorem not_alike_respell (hmixed : o.InMixed) (hstroke : s.isStroke = true)
    (hother : s'.isStroke = false) : ¬ AllAlike (lex (o.respell s)) (lex (o.respell s')) := by
  rw [o.lex_respell hfits, o.lex_respell hfits', beq_iff_eq.1 hstroke]
  exact not_alike_of_joins hmixed (beq_eq_false_iff_ne.1 hother)

/-- Two spellings of one operator are read alike in a text, except where exactly one of
them is read as the stroke of a mixed number. -/
theorem alike_respell_iff (hsymbol : s.symbol = s'.symbol) :
    AllAlike (lex (o.respell s)) (lex (o.respell s')) ↔ s.isStroke = s'.isStroke ∨ ¬ o.InMixed := by
  refine ⟨fun h => ?_, o.alike_respell hfits hfits' hsymbol⟩
  by_contra hnot
  rw [not_or, not_not] at hnot
  obtain ⟨hdiffer, hmixed⟩ := hnot
  cases hs : s.isStroke with
  | true =>
    rw [hs, eq_comm, Bool.not_eq_true] at hdiffer
    exact o.not_alike_respell hfits hfits' hmixed hs hdiffer h
  | false =>
    rw [hs, eq_comm, Bool.not_eq_false] at hdiffer
    exact o.not_alike_respell hfits' hfits hmixed hdiffer hs h.symm

end

end Occurrence

end Token

namespace Parser

open Token

section
variable {count : Nat} {ts us rest : List Token}

theorem leading?_of_alike (h : AllAlike ts us) (additive : Bool) :
    leading? additive ts = leading? additive us := by
  cases h with
  | nil => rfl
  | cons ht _ => rw [leading?, leading?, ht.operation?]

theorem Closes.alike {kind : TokenKind} {bracket : String} {ws : List ParseWarning}
    (h : Closes count kind bracket ts rest ws) (hus : AllAlike ts us) :
    ∃ rest', AllAlike rest rest' ∧ Closes count kind bracket us rest' ws := by
  cases h with
  | found hk =>
    obtain - | ⟨ht, hrest⟩ := hus
    exact ⟨_, hrest, .found (ht.kind ▸ hk)⟩
  | missing hne =>
    refine ⟨us, hus, ?_⟩
    rw [hus.length_eq]
    refine .missing ?_
    rintro u more rfl
    obtain - | ⟨ht, -⟩ := hus
    rw [← ht.kind]
    exact hne _ _ rfl

/-- Tokens that are alike give the same node and the same remarks, and what is left of
them is alike. -/
theorem Reads.alike {p : Phrase} {n : Option Expr} {ws : List ParseWarning}
    (h : Reads count p ts n rest ws) (hus : AllAlike ts us) :
    ∃ rest', AllAlike rest rest' ∧ Reads count p us n rest' ws := by
  induction h generalizing us with
  | chain _ _ ih₁ ih₂ =>
    obtain ⟨vs, hvs, h₁⟩ := ih₁ hus
    obtain ⟨rest', hrest, h₂⟩ := ih₂ hvs
    exact ⟨rest', hrest, .chain h₁ h₂⟩
  | stop hop => exact ⟨us, hus, .stop (leading?_of_alike hus _ ▸ hop)⟩
  | fail hop _ hjoin ih =>
    rw [leading?_of_alike hus] at hop
    obtain - | ⟨-, htail⟩ := hus
    obtain ⟨rest', hrest, h⟩ := ih htail
    exact ⟨rest', hrest, .fail hop h hjoin⟩
  | more hop _ _ ih₁ ih₂ =>
    rw [leading?_of_alike hus] at hop
    obtain - | ⟨-, htail⟩ := hus
    obtain ⟨vs, hvs, h₁⟩ := ih₁ htail
    obtain ⟨rest', hrest, h₂⟩ := ih₂ hvs
    exact ⟨rest', hrest, .more hop h₁ h₂⟩
  | mixedToken hk he =>
    obtain - | ⟨ht, htail⟩ := hus
    rw [ht.text (by rw [hk]; decide)] at he
    exact ⟨_, htail, .mixedToken (ht.kind ▸ hk) he⟩
  | numeral hk he hts =>
    obtain - | ⟨ht, htail⟩ := hus
    rw [ht.text (by rw [hk]; decide)] at he
    refine ⟨_, htail, .numeral (ht.kind ▸ hk) he ?_⟩
    rintro u more rfl
    obtain - | ⟨hu, -⟩ := htail
    rw [← hu.kind]
    exact hts _ _ rfl
  | mixed hk hu _ _ ha hb he ih₁ ih₂ =>
    obtain - | ⟨ht, - | ⟨hfraction, htail⟩⟩ := hus
    rw [ht.text (by rw [hk]; decide)] at he
    obtain ⟨vs, hvs, h₁⟩ := ih₁ htail
    obtain ⟨rest', hrest, h₂⟩ := ih₂ hvs
    exact ⟨rest', hrest, .mixed (ht.kind ▸ hk) (hfraction.kind ▸ hu) h₁ h₂ ha hb he⟩
  | givenBack hk hu _ _ hnot he ih₁ ih₂ =>
    obtain - | ⟨ht, - | ⟨hfraction, htail⟩⟩ := hus
    rw [ht.text (by rw [hk]; decide)] at he ⊢
    obtain ⟨vs, hvs, h₁⟩ := ih₁ htail
    obtain ⟨rest', -, h₂⟩ := ih₂ hvs
    exact ⟨_, .cons hfraction htail,
      .givenBack (ht.kind ▸ hk) (hfraction.kind ▸ hu) h₁ h₂ hnot he⟩
  | bracketed hk _ hclose ih =>
    obtain - | ⟨ht, htail⟩ := hus
    obtain ⟨vs, hvs, h⟩ := ih htail
    obtain ⟨rest', hrest, hclose'⟩ := hclose.alike hvs
    exact ⟨rest', hrest, .bracketed (ht.kind ▸ hk) h hclose'⟩
  | signed hk hminus _ ih =>
    obtain - | ⟨ht, htail⟩ := hus
    obtain ⟨rest', hrest, h⟩ := ih htail
    exact ⟨rest', hrest, .signed (ht.kind ▸ hk) (ht.sign hk ▸ hminus) h⟩
  | fraction hk _ _ ih₁ ih₂ =>
    obtain - | ⟨ht, htail⟩ := hus
    obtain ⟨vs, hvs, h₁⟩ := ih₁ htail
    obtain ⟨rest', hrest, h₂⟩ := ih₂ hvs
    exact ⟨rest', hrest, .fraction (ht.kind ▸ hk) h₁ h₂⟩
  | nothing h =>
    refine ⟨us, hus, .nothing ?_⟩
    rintro u more rfl
    obtain - | ⟨ht, -⟩ := hus
    obtain ⟨h₁, h₂, h₃, h₄, h₅⟩ := h _ _ rfl
    rw [← ht.kind]
    exact ⟨h₁, h₂, h₃, h₄, fun hk => (ht.sign hk).symm.trans (h₅ hk)⟩
  | braced hk _ hclose ih =>
    obtain - | ⟨ht, htail⟩ := hus
    obtain ⟨vs, hvs, h⟩ := ih htail
    obtain ⟨rest', hrest, hclose'⟩ := hclose.alike hvs
    exact ⟨rest', hrest, .braced (ht.kind ▸ hk) h hclose'⟩
  | unbraced hbrace _ ih =>
    obtain ⟨rest', hrest, h⟩ := ih hus
    refine ⟨rest', hrest, .unbraced ?_ h⟩
    rintro u more rfl
    obtain - | ⟨ht, -⟩ := hus
    rw [← ht.kind]
    exact hbrace _ _ rfl

end
end Parser

namespace Parsed

open FormulaMap.Parser Token

variable {ts us : List Token}

theorem expr_ofTokens_of_alike_some (h : AllAlike ts us) {e : Expr}
    (he : (ofTokens ts).expr = some e) : (ofTokens us).expr = some e := by
  obtain ⟨step, hsum, hnode, -⟩ := sum_of_ofTokens he
  have hreads : Reads ts.length (.chain true) ts step.node step.rest step.warnings :=
    described _ (.chain true) _ step hsum
  obtain ⟨rest', -, hreads'⟩ := hreads.alike h
  obtain ⟨step', hsum', hnode', -, -⟩ := reads_iff.1 hreads'
  rw [h.length_eq] at hsum'
  have hread : sum us.length us = .ok step' := hsum'
  rw [ofTokens, hread]
  dsimp only
  rw [ofStep, hnode', hnode]

theorem expr_ofTokens_of_alike (h : AllAlike ts us) : (ofTokens ts).expr = (ofTokens us).expr :=
  Option.ext fun _ => ⟨expr_ofTokens_of_alike_some h, expr_ofTokens_of_alike_some h.symm⟩

/-- Every operator token of a formula is written somewhere in it, and any other spelling
of the operator there leaves the expression as it is, unless the operator stands where
mixed numbers have their stroke and exactly one of the two spellings is read as one. -/
theorem expr_respell (text : String) :
    (∀ ts t us, Token.ofString text = ts ++ t :: us → t.kind = .operator →
      Written text.toList ts t us) ∧
    ∀ (o : Occurrence text.toList) (s : Spelling), s.symbol = o.spelling.symbol →
      s.Fits o.after → s.isStroke = o.spelling.isStroke ∨ ¬ o.InMixed →
        (ofString (String.ofList (o.respell s))).expr = (ofString text).expr := by
  refine ⟨fun ts t us h ht => written_of_scan ht ts h, ?_⟩
  intro o s hsymbol hfits hstroke
  have hsame : o.respell o.spelling = text.toList := o.eq_append.symm
  have halike := o.alike_respell hfits o.fits hsymbol hstroke
  rw [hsame] at halike
  rw [ofString_eq, ofString_eq, String.toList_ofList]
  exact expr_ofTokens_of_alike halike

/-- The division sign of `1 2\div3`, which is read as a stroke. -/
def dividedTwo : Occurrence "1 2\\div3".toList where
  before := "1 2".toList
  spelling := .command "div".toList "/" (by decide)
  after := "3".toList
  eq_append := by decide
  unescaped := by decide
  fits := delimits_cons (by decide +kernel) []

/-- With a stroke for `\div` the mixed number is the same. -/
theorem expr_respell_div :
    (ofString "1 2/3").expr = (ofString "1 2\\div3").expr ∧
      (ofString "1 2\\div3").expr = some (.mixed "1" "2" "3" none) :=
  ⟨(expr_respell "1 2\\div3").2 dividedTwo (.glyph '/' (by decide)) (by decide) trivial
    (.inl (by decide)), by decide +kernel⟩

/-- A colon for the stroke of a mixed number takes the mixed number apart. -/
theorem not_forall_expr_respell :
    ¬ ∀ (text : String) (o : Occurrence text.toList) (s : Spelling),
      s.symbol = o.spelling.symbol → s.Fits o.after →
        (ofString (String.ofList (o.respell s))).expr = (ofString text).expr := by
  intro h
  have hcolon := h "1 2\\div3" dividedTwo (.glyph ':' (by decide)) (by decide) trivial
  exact absurd hcolon (by decide +kernel)

end Parsed
end FormulaMap

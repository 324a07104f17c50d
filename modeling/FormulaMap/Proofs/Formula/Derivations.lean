/-
Derivations in the grammar of expressions.

A sum is a product, or a sum, a glyph of addition and a product; a product is a primary,
or a product, a glyph of multiplication and a primary.  The level of a derivation says
which of the three it derives, so operations group to the left and multiplication binds
tighter because no other derivation can be built.  The tokens and the expression of a
derivation are read off its rules, and neither looks at the reader.

A sign before an unsigned numeral is part of the numeral, also when brackets stand
between them.  `unsigned?` finds that numeral by the rules that lead to it.

`ofTokens_tokens` says that the tokens of a derivation are read as its expression and
that nothing is remarked.  It covers every glyph that the registry lists and every text
of a bracket, and no two derivations of the same tokens differ in their expressions
(`expr_eq_of_tokens_eq`).
-/
import FormulaMap.Proofs.Formula.Lexing
import FormulaMap.Proofs.Formula.Spelling

namespace FormulaMap
namespace Grammar

open FormulaMap.Parser

/-! ## Texts of tokens -/

/-- A glyph of an operation: the registry lists it, up to white space. -/
structure Glyph (additive : Bool) where
  text : String
  operation : BinaryOperation
  isAdditive : operation.isAdditive = additive
  listed : ∃ o ∈ Registry.standard,
    o.symbol = operation.symbol ∧ Text.squeeze text ∈ o.spellings

structure MinusGlyph where
  text : String
  isMinus : text = "-" ∨ text = "−"

structure Numeral where
  text : String
  startsWithDigit : StartsWithDigit text

/-- A numeral of the digits `0` to `9`. -/
structure Digits where
  text : String
  isNumber : Text.isNumber text.toList = true

/-- One of the three parts that underscores join. -/
structure MixedPart where
  text : String
  present : text ≠ ""
  separate : '_' ∉ text.toList

/-- Brackets or braces, whatever they look like. -/
structure Delimiters where
  opening : String
  closing : String

namespace Delimiters

def brackets (b : Delimiters) (ts : List Token) : List Token :=
  ⟨.openParen, b.opening⟩ :: (ts ++ [⟨.closeParen, b.closing⟩])

def braces (b : Delimiters) (ts : List Token) : List Token :=
  ⟨.openBrace, b.opening⟩ :: (ts ++ [⟨.closeBrace, b.closing⟩])

end Delimiters

/-! ## Derivations -/

inductive Level where
  | sum
  | product
  | primary
  deriving DecidableEq, Repr

inductive Derivation : Level → Type where
  | product (r : Derivation .product) : Derivation .sum
  | added (l : Derivation .sum) (g : Glyph true) (r : Derivation .product) : Derivation .sum
  | primary (r : Derivation .primary) : Derivation .product
  | multiplied (l : Derivation .product) (g : Glyph false) (r : Derivation .primary) :
      Derivation .product
  | numeral (t : Numeral) : Derivation .primary
  /-- A mixed number that is one token. -/
  | mixedToken (w n d : MixedPart) : Derivation .primary
  /-- A mixed number written as a numeral before a fraction, whose command is `f`. -/
  | mixed (w : Numeral) (f : String) (b : Delimiters) (n : Digits) (b' : Delimiters) (d : Digits) :
      Derivation .primary
  | bracketed (b : Delimiters) (e : Derivation .sum) : Derivation .primary
  | signed (s : MinusGlyph) (p : Derivation .primary) : Derivation .primary
  | fraction (f : String) (b : Delimiters) (n : Derivation .sum) (b' : Delimiters)
      (d : Derivation .sum) : Derivation .primary

namespace Derivation

def tokens : {l : Level} → Derivation l → List Token
  | _, product r => r.tokens
  | _, added l g r => l.tokens ++ ⟨.operator, g.text⟩ :: r.tokens
  | _, primary r => r.tokens
  | _, multiplied l g r => l.tokens ++ ⟨.operator, g.text⟩ :: r.tokens
  | _, numeral t => [⟨.number, t.text⟩]
  | _, mixedToken w n d => [⟨.mixed, w.text ++ "_" ++ n.text ++ "_" ++ d.text⟩]
  | _, mixed w f b n b' d =>
    ⟨.number, w.text⟩ :: ⟨.fraction, f⟩ ::
      (b.braces [⟨.number, n.text⟩] ++ b'.braces [⟨.number, d.text⟩])
  | _, bracketed b e => b.brackets e.tokens
  | _, signed s p => ⟨.operator, s.text⟩ :: p.tokens
  | _, fraction f b n b' d => ⟨.fraction, f⟩ :: (b.braces n.tokens ++ b'.braces d.tokens)

/-- The unsigned numeral that is all there is, brackets apart. -/
def unsigned? : {l : Level} → Derivation l → Option String
  | _, product r => r.unsigned?
  | _, primary r => r.unsigned?
  | _, numeral t => some t.text
  | _, bracketed _ e => e.unsigned?
  | _, _ => none

def expr : {l : Level} → Derivation l → Expr
  | _, product r => r.expr
  | _, added l g r => .binary g.operation l.expr r.expr none
  | _, primary r => r.expr
  | _, multiplied l g r => .binary g.operation l.expr r.expr none
  | _, numeral t => .numeral t.text none
  | _, mixedToken w n d => .mixed w.text n.text d.text none
  | _, mixed w _ _ n _ d => .mixed w.text n.text d.text none
  | _, bracketed _ e => e.expr
  | _, signed _ p =>
    match p.unsigned? with
    | some t => .numeral ("-" ++ t) none
    | none => .negation p.expr none
  | _, fraction _ _ n _ d => .fraction n.expr d.expr none

end Derivation

/-! ## The reader knows the tokens -/

/-- Every spelling in the registry is found as the operator that lists it. -/
theorem find?_claims : ∀ o ∈ Registry.standard, ∀ s ∈ o.spellings,
    s.isEmpty = false ∧ Registry.standard.find? (·.claims s) = some o := by
  decide

theorem Glyph.normalizeOperator_text {additive : Bool} (g : Glyph additive) :
    normalizeOperator g.text = g.operation.symbol := by
  obtain ⟨o, ho, hsymbol, hlisted⟩ := g.listed
  obtain ⟨hne, hfind⟩ := find?_claims o ho _ hlisted
  have hlookup : Registry.standard.lookup g.text = some o := by
    rw [Registry.lookup, hne, if_neg Bool.false_ne_true]
    exact hfind
  rw [normalizeOperator, Registry.normalize, hlookup]
  exact hsymbol

theorem Glyph.leading?_eq {additive : Bool} (g : Glyph additive) :
    leading? additive [⟨.operator, g.text⟩] = some g.operation := by
  have hop : Token.operation? ⟨.operator, g.text⟩ = some g.operation := by
    rw [Token.operation?, if_pos rfl, g.normalizeOperator_text]
    exact BinaryOperation.ofSymbol?_symbol g.operation
  rw [leading?, hop, Option.filter_some, g.isAdditive, beq_self_eq_true, if_pos rfl]

theorem MinusGlyph.isMinusGlyph_text (s : MinusGlyph) : isMinusGlyph s.text = true := by
  rcases s.isMinus with h | h
  · rw [h]
    decide
  · rw [h]
    decide

theorem mixedParts_of_parts (w n d : MixedPart) :
    Token.mixedParts (w.text ++ "_" ++ n.text ++ "_" ++ d.text) = .ok (w.text, n.text, d.text) :=
  Token.mixedParts_of_not_mem w.separate n.separate d.separate

/-! ## The rules build what the reader builds -/

namespace Derivation

/-- The expression of an unsigned numeral is that numeral, and every other expression is
no unsigned numeral: a sign has gone before it. -/
theorem unsigned?_spec {l : Level} (d : Derivation l) :
    match d.unsigned? with
    | some t => StartsWithDigit t ∧ d.expr = .numeral t none
    | none => d.expr.isUnsigned = false := by
  induction d with
  | product r ih => exact ih
  | added l g r => rfl
  | primary r ih => exact ih
  | multiplied l g r => rfl
  | numeral t => exact ⟨t.startsWithDigit, rfl⟩
  | mixedToken w n d => rfl
  | mixed w f b n b' d => rfl
  | bracketed b e ih => exact ih
  | signed s p =>
    show (signed s p).expr.isUnsigned = false
    rw [expr]
    cases p.unsigned? with
    | none => rfl
    | some t =>
      have hminus : ("-" ++ t).startsWith "-" = true := by
        simp [String.startsWith_string_iff]
      rw [Expr.isUnsigned, hminus]
      rfl
  | fraction f b n b' d => rfl

theorem not_startsWith_minus {t : String} (h : StartsWithDigit t) : t.startsWith "-" = false := by
  obtain ⟨c, cs, hcs, hc⟩ := h
  rw [Bool.eq_false_iff, ne_eq, String.startsWith_string_iff, hcs]
  rintro ⟨more, heq⟩
  cases heq
  exact absurd hc (by decide)

theorem negate_expr (s : MinusGlyph) (p : Derivation .primary) :
    negate p.expr = (signed s p).expr := by
  have hspec := p.unsigned?_spec
  rw [expr]
  cases hp : p.unsigned? with
  | none =>
    rw [hp] at hspec
    exact Expr.negate_of_not_isUnsigned hspec
  | some t =>
    rw [hp] at hspec
    rw [hspec.2, negate, not_startsWith_minus hspec.1, if_neg Bool.false_ne_true]

end Derivation

/-- The phrase that is read for a level. -/
def Level.phrase : Level → Phrase
  | sum => .chain true
  | product => .chain false
  | primary => .primary

namespace Derivation

theorem derives {l : Level} (d : Derivation l) : Derives l.phrase d.tokens d.expr := by
  induction d with
  | product r ih => exact .operand ih
  | added l g r ihl ihr => exact .join ihl g.leading?_eq ihr
  | primary r ih => exact .operand ih
  | multiplied l g r ihl ihr => exact .join ihl g.leading?_eq ihr
  | numeral t => exact .numeral rfl t.startsWithDigit
  | mixedToken w n d =>
    exact .mixedToken rfl (mixedParts_of_parts w n d) w.present n.present d.present
  | mixed w f b n b' d =>
    exact .mixed rfl w.startsWithDigit rfl rfl rfl n.isNumber rfl rfl rfl d.isNumber rfl
  | bracketed b e ih => exact .bracketed rfl ih rfl
  | signed s p ih =>
    rw [← negate_expr]
    exact .signed rfl s.isMinusGlyph_text ih
  | fraction f b n b' d ihn ihd =>
    have htokens : (fraction f b n b' d).tokens = ⟨.fraction, f⟩ :: ⟨.openBrace, b.opening⟩ ::
        n.tokens ++ ⟨.closeBrace, b.closing⟩ :: ⟨.openBrace, b'.opening⟩ :: d.tokens ++
          [⟨.closeBrace, b'.closing⟩] := by
      simp [tokens, Delimiters.braces]
    rw [htokens]
    exact .fraction rfl rfl ihn rfl rfl ihd rfl

/-- The tokens of a derivation are read as its expression, and nothing is remarked. -/
theorem ofTokens_tokens (d : Derivation .sum) :
    Parsed.ofTokens d.tokens = ⟨some d.expr, []⟩ :=
  ofTokens_of_derives d.derives

/-- A sign reaches a numeral through brackets. -/
example (s : MinusGlyph) (b : Delimiters) (t : Numeral) :
    (signed s (.bracketed b (.product (.primary (.numeral t))))).expr =
      .numeral ("-" ++ t.text) none := rfl

/-- The grammar is unambiguous. -/
theorem expr_eq_of_tokens_eq {d d' : Derivation .sum} (h : d.tokens = d'.tokens) :
    d.expr = d'.expr := by
  have hread := ofTokens_of_derives d.derives
  rw [h, ofTokens_of_derives d'.derives] at hread
  exact (Option.some.inj (congrArg Parsed.expr hread)).symm

end Derivation

end Grammar
end FormulaMap

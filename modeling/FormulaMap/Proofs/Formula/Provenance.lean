/-
Where the nodes of an expression come from.

A syntax tree is an expression that has kept its tokens.  `Builds` are the rules by which
the reader consumes the tokens of a sum without fractions, with the tree that it makes in
place of the node: whenever the reader makes an expression and remarks nothing there is
one tree by these rules, and it is a tree of that expression (`exists_builds`,
`Builds.reads`, `Builds.unique`).

`uses` lists the tokens of a tree with what has become of each.  A token that has become
a node is listed with the path of that node, so the descriptors of the expression are read
off the list (`map_fst_numeralEntries`, `operatorEntries_eq_filterMap`).  Whether a minus
is a sign can be told from the token before it (`alternates_uses`).
-/
import FormulaMap.Proofs.Formula.Descriptors
import FormulaMap.Proofs.Formula.Yield
import Mathlib.Data.List.Chain

namespace FormulaMap

/-- An expression with the tokens that it was read from. -/
inductive SyntaxTree where
  | numeral (t : Token)
  | bracketed (opening : Token) (inner : SyntaxTree) (closing : Token)
  | signed (sign : Token) (arg : SyntaxTree)
  | joined (op : BinaryOperation) (left : SyntaxTree) (t : Token) (right : SyntaxTree)

/-- What has become of a token: a numeral, an operation or a negation at a path, a sign
that is part of a numeral, or nothing but a bracket. -/
inductive Use where
  | numeral (path : String)
  | operation (path : String)
  | sign (path : String)
  | folded
  | bracket
  deriving DecidableEq, Repr

namespace Use

def isOperation : Use → Bool
  | operation _ => true
  | _ => false

/-- A sign, whether or not it is part of a numeral. -/
def isSign : Use → Bool
  | sign _ => true
  | folded => true
  | _ => false

end Use

namespace SyntaxTree

open FormulaMap.Parser

def expr : SyntaxTree → Expr
  | numeral t => .numeral t.text none
  | bracketed _ s _ => s.expr
  | signed _ s => negate s.expr
  | joined o l _ r => .binary o l.expr r.expr none

def tokens : SyntaxTree → List Token
  | numeral t => [t]
  | bracketed o s c => o :: s.tokens ++ [c]
  | signed t s => t :: s.tokens
  | joined _ l t r => l.tokens ++ t :: r.tokens

/-- The tokens with their uses, the tree itself being at `p`. -/
def uses (p : String) : SyntaxTree → List (Token × Use)
  | numeral t => [(t, .numeral p)]
  | bracketed o s c => (o, .bracket) :: s.uses p ++ [(c, .bracket)]
  | signed t s =>
    if s.expr.isUnsigned then (t, .folded) :: s.uses p
    else (t, .sign p) :: s.uses (Path.child p .argument)
  | joined _ l t r =>
    l.uses (Path.child p .left) ++ (t, .operation p) :: r.uses (Path.child p .right)

/-- Every token is of the sort that its place in the tree asks for. -/
def Formed : SyntaxTree → Prop
  | numeral t => t.kind = .number ∧ t.text ≠ ""
  | bracketed o s c => o.kind = .openParen ∧ s.Formed ∧ c.kind = .closeParen
  | signed t s => (t.kind = .operator ∧ isMinusGlyph t.text = true) ∧ s.Formed
  | joined o l t r => l.Formed ∧ t.operation? = some o ∧ r.Formed

theorem exists_number {s : SyntaxTree} (hs : s.Formed) :
    ∃ t ∈ s.tokens, t.kind = .number := by
  induction s with
  | numeral t => exact ⟨t, List.mem_singleton_self t, hs.1⟩
  | bracketed o s c ih =>
    obtain ⟨t, ht, hk⟩ := ih hs.2.1
    exact ⟨t, List.mem_append_left _ (List.mem_cons_of_mem o ht), hk⟩
  | signed u s ih =>
    obtain ⟨t, ht, hk⟩ := ih hs.2
    exact ⟨t, List.mem_cons_of_mem u ht, hk⟩
  | joined o l u r ihl _ =>
    obtain ⟨t, ht, hk⟩ := ihl hs.1
    exact ⟨t, List.mem_append_left _ ht, hk⟩

theorem map_fst_uses (s : SyntaxTree) (p : String) : (s.uses p).map Prod.fst = s.tokens := by
  induction s generalizing p with
  | numeral t => rfl
  | bracketed o s c ih => rw [uses, tokens, List.map_append, List.map_cons, ih]; rfl
  | signed t s ih =>
    rw [uses, tokens]
    split <;> rw [List.map_cons, ih]
  | joined o l t r ihl ihr => rw [uses, tokens, List.map_append, List.map_cons, ihl, ihr]

end SyntaxTree

namespace Parser

/-! ## The rules of the reader -/

/-- What is being built: a primary, a chain of operands, or the rest of a chain of which
`left` has been built. -/
inductive Goal where
  | primary
  | chain (additive : Bool)
  | tail (additive : Bool) (left : SyntaxTree)

namespace Goal

def operand : Bool → Goal
  | true => chain false
  | false => primary

def phrase : Goal → Phrase
  | primary => .primary
  | chain additive => .chain additive
  | tail additive left => .tail additive (some left.expr)

theorem phrase_operand (additive : Bool) : (operand additive).phrase = .operand additive := by
  cases additive <;> rfl

/-- The tokens of what has been built. -/
def tokens : Goal → List Token
  | primary => []
  | chain _ => []
  | tail _ left => left.tokens

def Formed : Goal → Prop
  | primary => True
  | chain _ => True
  | tail _ left => left.Formed

theorem formed_operand (additive : Bool) : (operand additive).Formed := by
  cases additive <;> trivial

theorem tokens_operand (additive : Bool) : (operand additive).tokens = [] := by
  cases additive <;> rfl

end Goal

inductive Builds : Goal → List Token → SyntaxTree → List Token → Prop where
  | numeral {t : Token} {ts : List Token} :
      t.kind = .number → t.text ≠ "" → (∀ u more, ts = u :: more → u.kind ≠ .fraction) →
      Builds .primary (t :: ts) (.numeral t) ts
  | bracketed {o c : Token} {ts rest : List Token} {s : SyntaxTree} :
      o.kind = .openParen → Builds (.chain true) ts s (c :: rest) → c.kind = .closeParen →
      Builds .primary (o :: ts) (.bracketed o s c) rest
  | signed {t : Token} {ts rest : List Token} {s : SyntaxTree} :
      t.kind = .operator → isMinusGlyph t.text = true → Builds .primary ts s rest →
      Builds .primary (t :: ts) (.signed t s) rest
  | chain {additive : Bool} {ts rest rest' : List Token} {s s' : SyntaxTree} :
      Builds (.operand additive) ts s rest → Builds (.tail additive s) rest s' rest' →
      Builds (.chain additive) ts s' rest'
  | stop {additive : Bool} {left : SyntaxTree} {ts : List Token} :
      leading? additive ts = none → Builds (.tail additive left) ts left ts
  | more {additive : Bool} {left right s : SyntaxTree} {t : Token} {op : BinaryOperation}
      {ts rest rest' : List Token} :
      leading? additive (t :: ts) = some op → Builds (.operand additive) ts right rest →
      Builds (.tail additive (.joined op left t right)) rest s rest' →
      Builds (.tail additive left) (t :: ts) s rest'

section
variable {g : Goal} {ts rest rest' : List Token} {s s' : SyntaxTree}

/-- A tree that is built is what the reader makes of its tokens, without a remark. -/
theorem Builds.reads (h : Builds g ts s rest) (count : Nat) :
    Reads count g.phrase ts (some s.expr) rest [] := by
  induction h with
  | numeral hk hne hts =>
    refine .numeral hk ?_ hts
    rw [Parser.numeral, if_neg (by simpa using hne)]
    rfl
  | bracketed hk _ hc ih => exact .bracketed hk ih (.found hc)
  | signed hk hminus _ ih => exact .signed hk hminus ih
  | chain _ _ ih₁ ih₂ =>
    rw [Goal.phrase_operand] at ih₁
    exact .chain ih₁ ih₂
  | stop h => exact .stop h
  | more hop _ _ ih₁ ih₂ =>
    rw [Goal.phrase_operand] at ih₁
    exact .more hop ih₁ ih₂

/-- What the reader makes without a remark, of tokens that are no fractions, is built. -/
theorem exists_builds {count : Nat} {p : Phrase} {n : Option Expr} {ws : List ParseWarning}
    (h : Reads count p ts n rest ws) (hts : ∀ t ∈ ts, t.kind ≠ .mixed ∧ t.kind ≠ .fraction)
    (hws : ws = []) {e : Expr} (he : n = some e) (hg : g.phrase = p) :
    ∃ s, Builds g ts s rest ∧ s.expr = e := by
  have hmono : ∀ {us vs : List Token}, us <:+ vs →
      (∀ t ∈ vs, t.kind ≠ .mixed ∧ t.kind ≠ .fraction) →
      ∀ t ∈ us, t.kind ≠ .mixed ∧ t.kind ≠ .fraction :=
    fun hs hvs t ht => hvs t (hs.subset ht)
  induction h generalizing g e with
  | @chain additive ts rest rest' n n' ws ws' h₁ h₂ ih₁ ih₂ =>
    obtain ⟨hws₁, hws₂⟩ := List.append_eq_nil_iff.1 hws
    cases n with
    | none => exact absurd (h₂.tail_none.symm.trans he) (by simp)
    | some left =>
      obtain ⟨l, hl, rfl⟩ := ih₁ hts hws₁ rfl (Goal.phrase_operand additive)
      obtain ⟨s, hs, rfl⟩ := ih₂ (hmono h₁.suffix hts) hws₂ he (g := .tail additive l) rfl
      cases g <;> cases hg
      exact ⟨s, .chain hl hs, rfl⟩
  | stop hstop =>
    cases g <;> cases hg
    cases he
    exact ⟨_, .stop hstop, rfl⟩
  | fail _ _ _ => cases he
  | @more additive left right t op ts rest rest' n ws ws' hop h₁ h₂ ih₁ ih₂ =>
    obtain ⟨hws₁, hws₂⟩ := List.append_eq_nil_iff.1 hws
    have hts' := hmono (List.suffix_cons t ts) hts
    cases g <;> cases hg
    next l =>
    obtain ⟨r, hr, rfl⟩ := ih₁ hts' hws₁ rfl (Goal.phrase_operand additive)
    obtain ⟨s, hs, rfl⟩ :=
      ih₂ (hmono h₁.suffix hts') hws₂ he (g := .tail additive (.joined op l t r)) rfl
    exact ⟨s, .more hop hr hs, rfl⟩
  | mixedToken hk _ => exact absurd hk (hts _ List.mem_cons_self).1
  | numeral hk hmade hnot =>
    cases g <;> cases hg
    obtain ⟨hne, rfl⟩ := numeral_eq_ok hmade
    cases he
    exact ⟨_, .numeral hk hne hnot, rfl⟩
  | mixed _ hu => exact absurd hu (hts _ (List.mem_cons_of_mem _ List.mem_cons_self)).2
  | givenBack _ hu => exact absurd hu (hts _ (List.mem_cons_of_mem _ List.mem_cons_self)).2
  | bracketed hk h₁ hclose ih =>
    obtain ⟨hws₁, hws₂⟩ := List.append_eq_nil_iff.1 hws
    cases hclose with
    | missing _ => cases hws₂
    | found hc =>
      cases g <;> cases hg
      obtain ⟨s, hs, rfl⟩ := ih (hmono (List.suffix_cons _ _) hts) hws₁ he (g := .chain true) rfl
      exact ⟨_, .bracketed hk hs hc, rfl⟩
  | signed hk hminus h₁ ih =>
    cases g <;> cases hg
    obtain ⟨arg, harg, rfl⟩ := Option.map_eq_some_iff.1 he
    obtain ⟨s, hs, rfl⟩ := ih (hmono (List.suffix_cons _ _) hts) hws harg (g := .primary) rfl
    exact ⟨_, .signed hk hminus hs, rfl⟩
  | fraction hk => exact absurd hk (hts _ List.mem_cons_self).2
  | nothing _ => cases he
  | braced _ _ _ _ => cases g <;> cases hg
  | unbraced _ _ _ => cases g <;> cases hg

theorem Builds.unique (h : Builds g ts s rest) (h' : Builds g ts s' rest') :
    s = s' ∧ rest = rest' := by
  induction h generalizing s' rest' with
  | numeral hk _ _ =>
    cases h' with
    | numeral _ _ _ => exact ⟨rfl, rfl⟩
    | bracketed hk' _ _ => cases hk.symm.trans hk'
    | signed hk' _ _ => cases hk.symm.trans hk'
  | bracketed hk _ _ ih =>
    cases h' with
    | numeral hk' _ _ => cases hk.symm.trans hk'
    | bracketed _ h₁ _ =>
      obtain ⟨rfl, heq⟩ := ih h₁
      obtain ⟨rfl, rfl⟩ := List.cons.inj heq
      exact ⟨rfl, rfl⟩
    | signed hk' _ _ => cases hk.symm.trans hk'
  | signed hk _ _ ih =>
    cases h' with
    | numeral hk' _ _ => cases hk.symm.trans hk'
    | bracketed hk' _ _ => cases hk.symm.trans hk'
    | signed _ _ h₁ =>
      obtain ⟨rfl, rfl⟩ := ih h₁
      exact ⟨rfl, rfl⟩
  | chain _ _ ih₁ ih₂ =>
    cases h' with
    | chain h₁ h₂ =>
      obtain ⟨rfl, rfl⟩ := ih₁ h₁
      exact ih₂ h₂
  | stop hstop =>
    cases h' with
    | stop _ => exact ⟨rfl, rfl⟩
    | more hop _ _ => cases hstop.symm.trans hop
  | more hop _ _ ih₁ ih₂ =>
    cases h' with
    | stop hstop => cases hstop.symm.trans hop
    | more hop' h₁ h₂ =>
      cases hop.symm.trans hop'
      obtain ⟨rfl, rfl⟩ := ih₁ h₁
      exact ih₂ h₂

theorem Builds.tokens_append (h : Builds g ts s rest) : g.tokens ++ ts = s.tokens ++ rest := by
  induction h with
  | numeral _ _ _ => rfl
  | @bracketed o c ts rest s _ _ _ ih =>
    have hinner : ts = s.tokens ++ c :: rest := ih
    show o :: ts = o :: s.tokens ++ [c] ++ rest
    rw [hinner, List.cons_append, List.cons_append, List.append_assoc]
    rfl
  | signed _ _ _ ih => exact congrArg (List.cons _) ih
  | chain _ _ ih₁ ih₂ =>
    rw [Goal.tokens_operand, List.nil_append] at ih₁
    rw [ih₁]
    exact ih₂
  | stop _ => rfl
  | more _ _ _ ih₁ ih₂ =>
    rw [Goal.tokens_operand, List.nil_append] at ih₁
    rw [← ih₂, ih₁, Goal.tokens, Goal.tokens, SyntaxTree.tokens]
    simp only [List.append_assoc, List.cons_append]

theorem operation?_of_leading? {additive : Bool} {t : Token} {op : BinaryOperation}
    (h : leading? additive (t :: ts) = some op) : t.operation? = some op := by
  rw [leading?, Option.filter_eq_some_iff] at h
  exact h.1

theorem Builds.formed (h : Builds g ts s rest) (hg : g.Formed) : s.Formed := by
  induction h with
  | numeral hk hne _ => exact ⟨hk, hne⟩
  | bracketed ho _ hc ih => exact ⟨ho, ih trivial, hc⟩
  | signed hk hminus _ ih => exact ⟨⟨hk, hminus⟩, ih trivial⟩
  | chain _ _ ih₁ ih₂ => exact ih₂ (ih₁ (Goal.formed_operand _))
  | stop _ => exact hg
  | more hop _ _ ih₁ ih₂ =>
    exact ih₂ ⟨hg, operation?_of_leading? hop, ih₁ (Goal.formed_operand _)⟩

end

end Parser

/-- The trees that the reader makes of a whole list of tokens. -/
theorem Parsed.exists_builds {ts : List Token} {e : Expr}
    (hts : ∀ t ∈ ts, t.kind ≠ .mixed ∧ t.kind ≠ .fraction) (h : ofTokens ts = ⟨some e, []⟩) :
    ∃ s, Parser.Builds (.chain true) ts s [] ∧ s.expr = e := by
  obtain ⟨step, hsum, hnode, hwarnings⟩ := sum_of_ofTokens (congrArg Parsed.expr h)
  rw [h, eq_comm, List.append_eq_nil_iff] at hwarnings
  have hrest : step.rest = [] := by
    cases hrest : step.rest with
    | nil => rfl
    | cons t more =>
      rw [hrest] at hwarnings
      cases hwarnings.2
  have hreads : Parser.Reads ts.length (.chain true) ts step.node step.rest step.warnings :=
    Parser.described _ (.chain true) _ step hsum
  rw [hrest] at hreads
  exact Parser.exists_builds hreads hts hwarnings.1 hnode (g := .chain true) rfl

/-! ## What became of the tokens -/

namespace SyntaxTree

open FormulaMap.Parser

/-- A sign before an unsigned numeral is given no path of its own. -/
theorem assignFrom_negate (e : Expr) (p : String) :
    (∃ t q, e = .numeral t q ∧ e.isUnsigned = true ∧
      (negate e).assignFrom p = .numeral ("-" ++ t) (some p)) ∨
    (e.isUnsigned = false ∧
      (negate e).assignFrom p = .negation (e.assignFrom (Path.child p .argument)) (some p)) := by
  cases hu : e.isUnsigned with
  | false =>
    rw [Expr.negate_of_not_isUnsigned hu]
    exact Or.inr ⟨rfl, rfl⟩
  | true =>
    cases e with
    | numeral t q =>
      rw [Expr.isUnsigned, Bool.not_eq_true'] at hu
      refine Or.inl ⟨t, q, rfl, rfl, ?_⟩
      rw [negate, hu, if_neg Bool.false_ne_true]
      rfl
    | binary o l r q => cases hu
    | negation a q => cases hu
    | fraction n d q => cases hu
    | mixed w n d q => cases hu

theorem child_ne_empty (p : String) (d : PathStep) : Path.child p d ≠ "" := by
  unfold Path.child
  split
  · cases d <;> decide
  · intro h
    have hlist := congrArg String.toList h
    simp at hlist

/-- The path of the numeral that a token has become. -/
def numeral? : Token × Use → Option String
  | (_, .numeral p) => some p
  | _ => none

/-- What the expression lists of the operator that a token has become. -/
def operator? : Token × Use → Option (String × String × Nat)
  | (t, .operation p) => some (p, normalizeOperator t.text, 2)
  | (_, .sign p) => some (p, "-", 1)
  | _ => none

theorem numeral?_of_numeral {u : Token × Use} {p : String} (h : u.2 = .numeral p) :
    numeral? u = some p := by
  match u, h with
  | (_, .numeral _), rfl => rfl

theorem operator?_of_operation {u : Token × Use} {p : String} (h : u.2 = .operation p) :
    operator? u = some (p, normalizeOperator u.1.text, 2) := by
  match u, h with
  | (_, .operation _), rfl => rfl

theorem isSome_operator?_of_isOperation {u : Token × Use} (h : u.2.isOperation = true) :
    (operator? u).isSome = true := by
  match u, h with
  | (_, .operation _), _ => rfl

/-- A sign without an operator before one with an operator is a sign that is part of a numeral
before one that is not. -/
theorem folded_before_iff {u v : Token × Use} :
    (u.2.isSign = true → v.2.isSign = true → operator? u = none → operator? v = none) ↔
      (u.2 = .folded → ∀ p, v.2 ≠ .sign p) := by
  obtain ⟨t, use⟩ := u
  obtain ⟨t', use'⟩ := v
  cases use <;> cases use' <;> simp [Use.isSign, operator?]

theorem Formed.textsPresent {s : SyntaxTree} (hs : s.Formed) : s.expr.textsPresent = true := by
  induction s with
  | numeral t => simpa [expr, Expr.textsPresent] using hs.2
  | bracketed o s c ih => exact ih hs.2.1
  | signed t s ih => exact textsPresent_negate (ih hs.2)
  | joined o l t r ihl ihr =>
    rw [expr, Expr.textsPresent, ihl hs.1, ihr hs.2.2]
    rfl

theorem map_fst_numeralEntries {s : SyntaxTree} (hs : s.Formed) {p : String} (hp : p ≠ "") :
    (s.expr.assignFrom p).numeralEntries.map Prod.fst = (s.uses p).filterMap numeral? := by
  induction s generalizing p with
  | numeral t =>
    rw [expr, Expr.assignFrom, Expr.numeralEntries, if_neg (by simpa using hs.2), Expr.address?_some hp]
    rfl
  | bracketed o s c ih =>
    rw [expr, ih hs.2.1 hp, uses, List.filterMap_append, List.filterMap_cons]
    simp [numeral?]
  | signed t s ih =>
    rw [expr, uses]
    rcases assignFrom_negate s.expr p with ⟨text, q, he, hu, hneg⟩ | ⟨hu, hneg⟩
    · have htext := hs.2.textsPresent
      have hinner := ih hs.2 hp
      rw [he, Expr.textsPresent, Bool.not_eq_true'] at htext
      rw [he, Expr.assignFrom, Expr.numeralEntries, htext, Expr.address?_some hp] at hinner
      rw [hneg, if_pos hu, List.filterMap_cons, Expr.numeralEntries, Expr.address?_some hp,
        if_neg (by simp)]
      exact hinner
    · rw [hneg, hu, if_neg Bool.false_ne_true]
      exact ih hs.2 (child_ne_empty p _)
  | joined o l t r ihl ihr =>
    rw [expr, Expr.assignFrom, Expr.numeralEntries, List.map_append,
      ihl hs.1 (child_ne_empty p _), ihr hs.2.2 (child_ne_empty p _), uses, List.filterMap_append,
      List.filterMap_cons]
    rfl

theorem operation?_eq_some {t : Token} {o : BinaryOperation} (h : t.operation? = some o) :
    normalizeOperator t.text = o.symbol := by
  unfold Token.operation? at h
  rw [Option.ite_none_right_eq_some] at h
  exact eq_symbol_of_ofSymbol? h.2

theorem operatorEntries_eq_filterMap {s : SyntaxTree} (hs : s.Formed) {p : String} (hp : p ≠ "") :
    (s.expr.assignFrom p).operatorEntries = (s.uses p).filterMap operator? := by
  induction s generalizing p with
  | numeral t => rfl
  | bracketed o s c ih =>
    rw [expr, ih hs.2.1 hp, uses, List.filterMap_append, List.filterMap_cons]
    simp [operator?]
  | signed t s ih =>
    rw [expr, uses]
    rcases assignFrom_negate s.expr p with ⟨text, q, he, hu, hneg⟩ | ⟨hu, hneg⟩
    · have hinner := ih hs.2 hp
      rw [he] at hinner
      rw [hneg, if_pos hu]
      exact hinner
    · rw [hneg, hu, if_neg Bool.false_ne_true, Expr.operatorEntries, Expr.address?_some hp,
        ih hs.2 (child_ne_empty p _)]
      rfl
  | joined o l t r ihl ihr =>
    rw [expr, Expr.assignFrom, Expr.operatorEntries,
      ihl hs.1 (child_ne_empty p _), ihr hs.2.2 (child_ne_empty p _), uses, List.filterMap_append,
      List.filterMap_cons, Expr.address?_some hp, operator?, operation?_eq_some hs.2.1]
    simp

/-! ## Tokens and nodes -/

/-- The use of a token is told by a node of the expression. -/
def Names (e : Expr) : Token × Use → Prop
  | (t, .numeral p) =>
    t.kind = .number ∧ ∃ v, .numeral v (some p) ∈ e.nodes ∧ (v = t.text ∨ v = "-" ++ t.text)
  | (t, .operation p) => ∃ o l r, t.operation? = some o ∧ .binary o l r (some p) ∈ e.nodes
  | (t, .sign p) =>
    (t.kind = .operator ∧ isMinusGlyph t.text = true) ∧ ∃ a, .negation a (some p) ∈ e.nodes
  | (t, .folded) => t.kind = .operator ∧ isMinusGlyph t.text = true
  | (t, .bracket) => t.kind = .openParen ∨ t.kind = .closeParen

theorem Names.mono {e e' : Expr} (h : ∀ x ∈ e.nodes, x ∈ e'.nodes) {u : Token × Use}
    (hu : Names e u) : Names e' u := by
  match u, hu with
  | (_, .numeral _), ⟨hk, v, hv, htext⟩ => exact ⟨hk, v, h _ hv, htext⟩
  | (_, .operation _), ⟨o, l, r, ho, hnode⟩ => exact ⟨o, l, r, ho, h _ hnode⟩
  | (_, .sign _), ⟨hk, a, ha⟩ => exact ⟨hk, a, h _ ha⟩
  | (_, .folded), hk => exact hk
  | (_, .bracket), hk => exact hk

/-- What a single numeral names, it names with a sign as well. -/
theorem Names.signed {text p : String} (hunsigned : text.startsWith "-" = false)
    {u : Token × Use} (hu : Names (.numeral text (some p)) u) :
    Names (.numeral ("-" ++ text) (some p)) u := by
  match u, hu with
  | (t, .numeral q), ⟨hk, v, hv, htext⟩ =>
    obtain ⟨rfl, hq⟩ := Expr.numeral.inj (List.mem_singleton.1 hv)
    cases hq
    refine ⟨hk, _, List.mem_singleton_self _, Or.inr ?_⟩
    rcases htext with rfl | rfl
    · rfl
    · have hminus : ("-" ++ t.text).startsWith "-" = true :=
        Expr.startsWith_minus_iff.2 ⟨t.text.toList, by simp⟩
      exact absurd (hminus.symm.trans hunsigned) (by decide)
  | (_, .operation _), ⟨_, _, _, _, hnode⟩ => cases List.mem_singleton.1 hnode
  | (_, .sign _), ⟨_, _, ha⟩ => cases List.mem_singleton.1 ha
  | (_, .folded), hk => exact hk
  | (_, .bracket), hk => exact hk

theorem names_of_mem_uses {s : SyntaxTree} (hs : s.Formed) {p : String} {u : Token × Use}
    (hu : u ∈ s.uses p) : Names (s.expr.assignFrom p) u := by
  induction s generalizing p with
  | numeral t =>
    rw [List.mem_singleton.1 hu]
    exact ⟨hs.1, t.text, List.mem_singleton_self _, Or.inl rfl⟩
  | bracketed o s c ih =>
    rw [uses, List.cons_append] at hu
    rcases List.mem_cons.1 hu with rfl | hu
    · exact Or.inl hs.1
    · rcases List.mem_append.1 hu with hu | hu
      · exact ih hs.2.1 hu
      · rw [List.mem_singleton.1 hu]
        exact Or.inr hs.2.2
  | signed t s ih =>
    rw [uses] at hu
    rw [expr]
    rcases assignFrom_negate s.expr p with ⟨text, q, he, hunsigned, hneg⟩ | ⟨hunsigned, hneg⟩
    · rw [if_pos hunsigned] at hu
      rw [hneg]
      rcases List.mem_cons.1 hu with rfl | hu
      · exact hs.1
      · have hinner := ih hs.2 hu
        rw [he] at hinner hunsigned
        exact hinner.signed (by simpa [Expr.isUnsigned] using hunsigned)
    · rw [hunsigned, if_neg Bool.false_ne_true] at hu
      rw [hneg]
      rcases List.mem_cons.1 hu with rfl | hu
      · exact ⟨hs.1, _, List.mem_cons_self⟩
      · refine (ih hs.2 hu).mono fun x hx => ?_
        exact List.mem_cons_of_mem (Expr.negation _ (some p)) hx
  | joined o l t r ihl ihr =>
    rw [uses] at hu
    rw [expr, Expr.assignFrom]
    rcases List.mem_append.1 hu with hu | hu
    · refine (ihl hs.1 hu).mono fun x hx => ?_
      exact List.mem_append_left _ hx
    · rcases List.mem_cons.1 hu with rfl | hu
      · exact ⟨o, _, _, hs.2.1, List.mem_append_right _ List.mem_cons_self⟩
      · refine (ihr hs.2.2 hu).mono fun x hx => ?_
        exact List.mem_append_right _ (List.mem_cons_of_mem _ hx)

/-! ## The token before a minus -/

/-- An operand ends with the token. -/
def endsOperand (u : Token × Use) : Bool := u.1.kind = .number || u.1.kind = .closeParen

/-- The token stands after an operand. -/
def followsOperand : Token × Use → Bool
  | (_, .operation _) => true
  | (t, _) => t.kind = .closeParen

/-- Tokens that stand after an operand, and only they, have the end of one before them. -/
structure Alternates (us : List (Token × Use)) : Prop where
  chain : us.IsChain fun a b => endsOperand a = followsOperand b
  first : ∃ u, us.head? = some u ∧ followsOperand u = false
  last : ∃ u, us.getLast? = some u ∧ endsOperand u = true

namespace Alternates

variable {us vs : List (Token × Use)} {u : Token × Use}

theorem singleton (hends : endsOperand u = true) (hfollows : followsOperand u = false) :
    Alternates [u] :=
  ⟨.singleton u, ⟨u, rfl, hfollows⟩, ⟨u, rfl, hends⟩⟩

/-- What opens an operand goes before one. -/
theorem cons (h : Alternates us) (hends : endsOperand u = false)
    (hfollows : followsOperand u = false) : Alternates (u :: us) := by
  obtain ⟨v, hv, hvfollows⟩ := h.first
  obtain ⟨w, hw, hwends⟩ := h.last
  refine ⟨h.chain.cons ?_, ⟨u, rfl, hfollows⟩, ⟨w, ?_, hwends⟩⟩
  · intro x hx
    cases hv.symm.trans hx
    rw [hends, hvfollows]
  · rw [List.getLast?_cons, hw]
    rfl

/-- What stands after an operand may end one as well. -/
theorem concat (h : Alternates us) (hends : endsOperand u = true)
    (hfollows : followsOperand u = true) : Alternates (us ++ [u]) := by
  obtain ⟨v, hv, hvfollows⟩ := h.first
  obtain ⟨w, hw, hwends⟩ := h.last
  refine ⟨List.isChain_append.2 ⟨h.chain, .singleton u, ?_⟩, ⟨v, ?_, hvfollows⟩, ⟨u, ?_, hends⟩⟩
  · intro x hx y hy
    cases hw.symm.trans hx
    cases Option.some.inj hy
    rw [hwends, hfollows]
  · rw [List.head?_append, hv]
    rfl
  · rw [List.getLast?_append]
    rfl

/-- An operation goes between two operands. -/
theorem join (h : Alternates us) (h' : Alternates vs) (hends : endsOperand u = false)
    (hfollows : followsOperand u = true) : Alternates (us ++ u :: vs) := by
  obtain ⟨v, hv, hvfollows⟩ := h.first
  obtain ⟨w, hw, hwends⟩ := h.last
  obtain ⟨v', hv', hvfollows'⟩ := h'.first
  obtain ⟨w', hw', hwends'⟩ := h'.last
  refine ⟨List.isChain_append.2 ⟨h.chain, h'.chain.cons ?_, ?_⟩, ⟨v, ?_, hvfollows⟩,
    ⟨w', ?_, hwends'⟩⟩
  · intro x hx
    cases hv'.symm.trans hx
    rw [hends, hvfollows']
  · intro x hx y hy
    cases hw.symm.trans hx
    cases Option.some.inj hy
    rw [hwends, hfollows]
  · rw [List.head?_append, hv]
    rfl
  · rw [List.getLast?_append, List.getLast?_cons, hw']
    rfl

end Alternates

theorem alternates_uses {s : SyntaxTree} (hs : s.Formed) (p : String) :
    Alternates (s.uses p) := by
  induction s generalizing p with
  | numeral t =>
    refine .singleton ?_ ?_
    · simp [endsOperand, hs.1]
    · simp [followsOperand, hs.1]
  | bracketed o s c ih =>
    refine Alternates.concat (.cons (ih hs.2.1 p) ?_ ?_) ?_ ?_
    · simp [endsOperand, hs.1]
    · simp [followsOperand, hs.1]
    · simp [endsOperand, hs.2.2]
    · simp [followsOperand, hs.2.2]
  | signed t s ih =>
    rw [uses]
    split
    · refine .cons (ih hs.2 _) ?_ ?_
      · simp [endsOperand, hs.1.1]
      · simp [followsOperand, hs.1.1]
    · refine .cons (ih hs.2 _) ?_ ?_
      · simp [endsOperand, hs.1.1]
      · simp [followsOperand, hs.1.1]
  | joined o l t r ihl ihr =>
    have hkind : t.kind = .operator := by
      have ho := hs.2.1
      rw [Token.operation?, Option.ite_none_right_eq_some] at ho
      exact ho.1
    refine .join (ihl hs.1 _) (ihr hs.2.2 _) ?_ rfl
    simp [endsOperand, hkind]

end SyntaxTree

/-! ## The tree of a reading -/

/-- The only tree that can be built from the tokens, which is a tree of the expression. -/
structure Parsed.Traced (ts : List Token) (e : Expr) (s : SyntaxTree) : Prop where
  builds : Parser.Builds (.chain true) ts s []
  only : ∀ s' rest, Parser.Builds (.chain true) ts s' rest → s' = s ∧ rest = []
  expr : s.expr = e
  tokens : s.tokens = ts
  formed : s.Formed
  names : ∀ u ∈ s.uses Path.root, SyntaxTree.Names e.assignPaths u

theorem Parser.Builds.traced {ts : List Token} {s : SyntaxTree}
    (h : Parser.Builds (.chain true) ts s []) : Parsed.Traced ts s.expr s where
  builds := h
  only := fun s' rest h' => by
    obtain ⟨rfl, rfl⟩ := h.unique h'
    exact ⟨rfl, rfl⟩
  expr := rfl
  tokens := (h.tokens_append.trans (List.append_nil _)).symm
  formed := h.formed trivial
  names := fun _ hu => SyntaxTree.names_of_mem_uses (h.formed trivial) hu

/-- Whenever an expression without fractions is read without a remark, there is a tree. -/
theorem Parsed.exists_traced {ts : List Token} {e : Expr}
    (hts : ∀ t ∈ ts, t.kind ≠ .mixed ∧ t.kind ≠ .fraction) (h : ofTokens ts = ⟨some e, []⟩) :
    ∃ s, Traced ts e s := by
  obtain ⟨s, hs, rfl⟩ := exists_builds hts h
  exact ⟨s, hs.traced⟩

end FormulaMap

/-
What the reader of expressions does, as a relation.

`Reads count p ts n rest ws` says that reading a phrase of sort `p` at the start
of `ts` gives the node `n`, leaves `rest` and remarks `ws`.  Sums and products are
one sort with a flag, since both are chains of operands joined from left to
right.  There is one rule for every way in which a step can end, the missing
brackets and the fraction that is given back included, so a property of all
results is proved by an induction with one case for each of them.

`reads_iff` says that the relation and the reader are the same.
-/
import FormulaMap.Formula.Parser

namespace FormulaMap
namespace Parser

/-- What is being read: a primary, a group, a chain of operands, or the operands of
a chain that come after `left`.  The additive chains are the sums. -/
inductive Phrase where
  | primary
  | group
  | chain (additive : Bool)
  | tail (additive : Bool) (left : Option Expr)

namespace Phrase

/-- The operands of a sum are products, and those of a product are primaries. -/
def operand : Bool → Phrase
  | true => chain false
  | false => primary

def read (count : Nat) : Phrase → (ts : List Token) → Except NodeFault (Step ts)
  | primary, ts => Parser.primary count ts
  | group, ts => Parser.group count ts
  | chain true, ts => sum count ts
  | chain false, ts => product count ts
  | tail true left, ts => sumRest count left ts
  | tail false left, ts => productRest count left ts

end Phrase

/-- A closing bracket is taken, or noted as missing where the reader stands. -/
inductive Closes (count : Nat) (kind : TokenKind) (bracket : String) :
    List Token → List Token → List ParseWarning → Prop where
  | found {t : Token} {rest : List Token} :
      t.kind = kind → Closes count kind bracket (t :: rest) rest []
  | missing {rest : List Token} :
      (∀ t more, rest = t :: more → t.kind ≠ kind) →
        Closes count kind bracket rest rest [.missingBracket bracket (count - rest.length)]

inductive Reads (count : Nat) :
    Phrase → List Token → Option Expr → List Token → List ParseWarning → Prop where
  | chain {additive : Bool} {ts rest rest' : List Token} {n n' : Option Expr}
      {ws ws' : List ParseWarning} :
      Reads count (.operand additive) ts n rest ws →
      Reads count (.tail additive n) rest n' rest' ws' →
      Reads count (.chain additive) ts n' rest' (ws ++ ws')
  | stop {additive : Bool} {left : Option Expr} {ts : List Token} :
      leading? additive ts = none → Reads count (.tail additive left) ts left ts []
  | fail {additive : Bool} {left right : Option Expr} {t : Token} {op : BinaryOperation}
      {ts rest : List Token} {ws : List ParseWarning} :
      leading? additive (t :: ts) = some op →
      Reads count (.operand additive) ts right rest ws →
      join op left right = none → Reads count (.tail additive left) (t :: ts) none rest ws
  | more {additive : Bool} {left right : Expr} {t : Token} {op : BinaryOperation}
      {ts rest rest' : List Token} {n : Option Expr} {ws ws' : List ParseWarning} :
      leading? additive (t :: ts) = some op →
      Reads count (.operand additive) ts (some right) rest ws →
      Reads count (.tail additive (some (.binary op left right none))) rest n rest' ws' →
      Reads count (.tail additive (some left)) (t :: ts) n rest' (ws ++ ws')
  | mixedToken {t : Token} {ts : List Token} {e : Expr} :
      t.kind = .mixed → Parser.mixedToken t.text = .ok e → Reads count .primary (t :: ts) (some e) ts []
  | numeral {t : Token} {ts : List Token} {e : Expr} :
      t.kind = .number → Parser.numeral t.text = .ok e →
      (∀ u more, ts = u :: more → u.kind ≠ .fraction) →
      Reads count .primary (t :: ts) (some e) ts []
  | mixed {t u : Token} {ts rest rest' : List Token} {n d : Option Expr} {a b : String} {e : Expr}
      {ws ws' : List ParseWarning} :
      t.kind = .number → u.kind = .fraction →
      Reads count .group ts n rest ws → Reads count .group rest d rest' ws' →
      bareInteger? n = some a → bareInteger? d = some b → mixedNumber t.text a b = .ok e →
      Reads count .primary (t :: u :: ts) (some e) rest' (ws ++ ws')
  | givenBack {t u : Token} {ts rest rest' : List Token} {n d : Option Expr} {e : Expr}
      {ws ws' : List ParseWarning} :
      t.kind = .number → u.kind = .fraction →
      Reads count .group ts n rest ws → Reads count .group rest d rest' ws' →
      bareInteger? n = none ∨ bareInteger? d = none → Parser.numeral t.text = .ok e →
      Reads count .primary (t :: u :: ts) (some e) (u :: ts) (ws ++ ws' ++ [.notMixed t.text])
  | bracketed {t : Token} {ts rest rest' : List Token} {n : Option Expr} {ws ws' : List ParseWarning} :
      t.kind = .openParen → Reads count (.chain true) ts n rest ws →
      Closes count .closeParen ")" rest rest' ws' →
      Reads count .primary (t :: ts) n rest' (ws ++ ws')
  | signed {t : Token} {ts rest : List Token} {n : Option Expr} {ws : List ParseWarning} :
      t.kind = .operator → isMinusGlyph t.text = true → Reads count .primary ts n rest ws →
      Reads count .primary (t :: ts) (n.map negate) rest ws
  | fraction {t : Token} {ts rest rest' : List Token} {n d : Option Expr} {ws ws' : List ParseWarning} :
      t.kind = .fraction → Reads count .group ts n rest ws → Reads count .group rest d rest' ws' →
      Reads count .primary (t :: ts) (pair n d) rest' (ws ++ ws')
  | nothing {ts : List Token} :
      (∀ t more, ts = t :: more → t.kind ≠ .mixed ∧ t.kind ≠ .number ∧ t.kind ≠ .openParen ∧
        t.kind ≠ .fraction ∧ (t.kind = .operator → isMinusGlyph t.text = false)) →
      Reads count .primary ts none ts []
  | braced {t : Token} {ts rest rest' : List Token} {n : Option Expr} {ws ws' : List ParseWarning} :
      t.kind = .openBrace → Reads count (.chain true) ts n rest ws →
      Closes count .closeBrace "\x7d" rest rest' ws' →
      Reads count .group (t :: ts) n rest' (ws ++ ws')
  | unbraced {ts rest : List Token} {n : Option Expr} {ws : List ParseWarning} :
      (∀ t more, ts = t :: more → t.kind ≠ .openBrace) → Reads count .primary ts n rest ws →
      Reads count .group ts n rest ws

/-! ## Steps without their proofs -/

/-- The step succeeds with this node, rest and remarks. -/
def Gives {ts : List Token} (r : Except NodeFault (Step ts)) (n : Option Expr) (rest : List Token)
    (ws : List ParseWarning) : Prop :=
  ∃ s, r = .ok s ∧ s.node = n ∧ s.rest = rest ∧ s.warnings = ws

theorem exists_of_bind_eq_ok {ε β γ : Type} {x : Except ε β} {f : β → Except ε γ} {c : γ}
    (h : x >>= f = .ok c) : ∃ b, x = .ok b ∧ f b = .ok c := by
  cases x with
  | error e => exact absurd h (by simp [bind, Except.bind])
  | ok b => exact ⟨b, rfl, h⟩

theorem bind_ok {ε β γ : Type} (b : β) (f : β → Except ε γ) : (Except.ok b : Except ε β) >>= f = f b :=
  rfl

theorem join_eq_some {op : BinaryOperation} {left right : Option Expr} {e : Expr}
    (h : join op left right = some e) :
    ∃ l r, left = some l ∧ right = some r ∧ e = .binary op l r none := by
  unfold join at h
  split at h
  · next l r => exact ⟨l, r, rfl, rfl, (Option.some.inj h).symm⟩
  · exact absurd h (by simp)

theorem closes_close (count : Nat) (kind : TokenKind) (bracket : String) {ts : List Token}
    (s : Step ts) : ∃ ws, Closes count kind bracket s.rest (close count kind bracket s).rest ws ∧
      (close count kind bracket s).node = s.node ∧
      (close count kind bracket s).warnings = s.warnings ++ ws := by
  unfold close
  split
  · next t rest heq =>
    by_cases hk : t.kind = kind
    · rw [if_pos hk]
      refine ⟨[], ?_, rfl, (List.append_nil _).symm⟩
      show Closes count kind bracket s.rest rest []
      rw [heq]
      exact .found hk
    · rw [if_neg hk]
      refine ⟨_, .missing ?_, rfl, rfl⟩
      intro u more hu
      rw [heq, List.cons.injEq] at hu
      rw [← hu.1]
      exact hk
  · next heq =>
    refine ⟨_, .missing ?_, rfl, ?_⟩
    · intro u more hu
      rw [heq] at hu
      exact absurd hu (by simp)
    · simp only [heq, List.length_nil, Nat.sub_zero]

theorem Closes.unique {count : Nat} {kind : TokenKind} {bracket : String}
    {ts rest rest' : List Token} {ws ws' : List ParseWarning}
    (h : Closes count kind bracket ts rest ws) (h' : Closes count kind bracket ts rest' ws') :
    rest = rest' ∧ ws = ws' := by
  cases h with
  | found hk =>
    cases h' with
    | found _ => exact ⟨rfl, rfl⟩
    | missing hne => exact absurd hk (hne _ _ rfl)
  | missing hne =>
    cases h' with
    | found hk => exact absurd hk (hne _ _ rfl)
    | missing _ => exact ⟨rfl, rfl⟩

/-! ## One equation for sums and products -/

theorem read_chain (count : Nat) (additive : Bool) (ts : List Token) :
    (Phrase.chain additive).read count ts = (do
      let first ← (Phrase.operand additive).read count ts
      let more ← (Phrase.tail additive first.node).read count first.rest
      return more.after first.warnings first.length_le) := by
  cases additive
  · exact product.eq_1 count ts
  · exact sum.eq_1 count ts

theorem read_tail_nil (count : Nat) (additive : Bool) (left : Option Expr) :
    (Phrase.tail additive left).read count [] = .ok ⟨left, [], [], Nat.le_refl _⟩ := by
  cases additive
  · exact productRest.eq_1 count left
  · exact sumRest.eq_1 count left

theorem read_tail_cons (count : Nat) (additive : Bool) (left : Option Expr) (t : Token)
    (ts : List Token) :
    (Phrase.tail additive left).read count (t :: ts) =
      match leading? additive (t :: ts) with
      | none => .ok ⟨left, t :: ts, [], Nat.le_refl _⟩
      | some op => do
        let right ← (Phrase.operand additive).read count ts
        match join op left right.node with
        | none => return ⟨none, right.rest, right.warnings, Nat.le_succ_of_le right.length_le⟩
        | some e =>
          let more ← (Phrase.tail additive (some e)).read count right.rest
          return more.after right.warnings (Nat.le_succ_of_le right.length_le) := by
  cases additive
  · exact productRest.eq_2 count left t ts
  · exact sumRest.eq_2 count left t ts

/-! ## Every result is described by a rule -/

/-- The rules describe whatever reading a phrase at the start of `ts` gives. -/
def Described (count : Nat) (p : Phrase) (ts : List Token) : Prop :=
  ∀ s, p.read count ts = .ok s → Reads count p ts s.node s.rest s.warnings

section
variable {count : Nat} {ts : List Token}

theorem described_chain {additive : Bool} (hfirst : Described count (.operand additive) ts)
    (hmore : ∀ left rest, rest.length ≤ ts.length → Described count (.tail additive left) rest) :
    Described count (.chain additive) ts := by
  intro s hs
  rw [read_chain] at hs
  obtain ⟨first, h₁, hs⟩ := exists_of_bind_eq_ok hs
  obtain ⟨more, h₂, hs⟩ := exists_of_bind_eq_ok hs
  cases hs
  exact .chain (hfirst first h₁) (hmore _ _ first.length_le more h₂)

theorem described_tail {additive : Bool} {left : Option Expr}
    (hshorter : ∀ p rest, rest.length < ts.length → Described count p rest) :
    Described count (.tail additive left) ts := by
  intro s hs
  cases ts with
  | nil =>
    rw [read_tail_nil] at hs
    cases hs
    exact .stop rfl
  | cons t ts =>
    rw [read_tail_cons] at hs
    split at hs
    · next hop =>
      cases hs
      exact .stop hop
    · next op hop =>
      obtain ⟨right, h₁, hs⟩ := exists_of_bind_eq_ok hs
      have hright := hshorter (.operand additive) ts (Nat.lt_succ_self _) right h₁
      split at hs
      · next hjoin =>
        cases hs
        exact .fail hop hright hjoin
      · next e hjoin =>
        obtain ⟨more, h₂, hs⟩ := exists_of_bind_eq_ok hs
        cases hs
        have hmore := hshorter (.tail additive (some e)) right.rest
          (Nat.lt_succ_of_le right.length_le) more h₂
        obtain ⟨l, r, rfl, hnode, rfl⟩ := join_eq_some hjoin
        exact .more hop (hnode ▸ hright) hmore

/-- A number alone, before a fraction that it is joined with, or before one that it is
not. -/
theorem described_number {t : Token} (hk : t.kind = .number)
    (hshorter : ∀ p rest, rest.length < (t :: ts).length → Described count p rest) :
    Described count .primary (t :: ts) := by
  intro s hs
  rw [Phrase.read, primary.eq_def] at hs
  simp only [hk] at hs
  split at hs
  · obtain ⟨e, he, hs⟩ := exists_of_bind_eq_ok hs
    cases hs
    exact .numeral hk he (by simp)
  · next u tail =>
    split at hs
    · next hu =>
      obtain ⟨n, hn, hs⟩ := exists_of_bind_eq_ok hs
      obtain ⟨d, hd, hs⟩ := exists_of_bind_eq_ok hs
      have hnum := hshorter .group tail (by simp only [List.length_cons]; omega) n hn
      have hden := hshorter .group n.rest
        (by have := n.length_le; simp only [List.length_cons]; omega) d hd
      split at hs
      · next a b ha hb =>
        obtain ⟨e, he, hs⟩ := exists_of_bind_eq_ok hs
        cases hs
        exact .mixed hk hu hnum hden ha hb he
      · next hnot =>
        obtain ⟨e, he, hs⟩ := exists_of_bind_eq_ok hs
        cases hs
        refine .givenBack hk hu hnum hden ?_ he
        cases ha : bareInteger? n.node with
        | none => exact Or.inl rfl
        | some a =>
          cases hb : bareInteger? d.node with
          | none => exact Or.inr rfl
          | some b => exact absurd hb (hnot a b ha)
    · next hu =>
      obtain ⟨e, he, hs⟩ := exists_of_bind_eq_ok hs
      cases hs
      refine .numeral hk he ?_
      intro v more hv
      rw [List.cons.injEq] at hv
      rw [← hv.1]
      exact hu

theorem described_primary (hshorter : ∀ p rest, rest.length < ts.length → Described count p rest) :
    Described count .primary ts := by
  intro s hs
  rw [Phrase.read] at hs
  cases ts with
  | nil =>
    rw [primary] at hs
    cases hs
    exact .nothing (by simp)
  | cons t ts =>
    by_cases hnumber : t.kind = .number
    · exact described_number hnumber hshorter s hs
    rw [primary.eq_def] at hs
    dsimp only at hs
    split at hs
    · next hk =>
      obtain ⟨e, he, hs⟩ := exists_of_bind_eq_ok hs
      cases hs
      exact .mixedToken hk he
    · next hk => exact absurd hk hnumber
    · next hk =>
      obtain ⟨inner, h₁, hs⟩ := exists_of_bind_eq_ok hs
      cases hs
      have hinner := hshorter (.chain true) ts (Nat.lt_succ_self _) inner h₁
      obtain ⟨ws, hclose, hnode, hws⟩ := closes_close count .closeParen ")" inner
      show Reads count .primary (t :: ts) (close count .closeParen ")" inner).node
        (close count .closeParen ")" inner).rest
        ([] ++ (close count .closeParen ")" inner).warnings)
      rw [hnode, hws, List.nil_append]
      exact .bracketed hk hinner hclose
    · next hk =>
      split at hs
      · next hminus =>
        obtain ⟨arg, h₁, hs⟩ := exists_of_bind_eq_ok hs
        cases hs
        exact .signed hk hminus (hshorter .primary ts (Nat.lt_succ_self _) arg h₁)
      · next hminus =>
        cases hs
        refine .nothing ?_
        intro u more hu
        rw [List.cons.injEq] at hu
        rw [← hu.1]
        simp [hk, hminus]
    · next hk =>
      obtain ⟨n, hn, hs⟩ := exists_of_bind_eq_ok hs
      obtain ⟨d, hd, hs⟩ := exists_of_bind_eq_ok hs
      cases hs
      exact .fraction hk (hshorter .group ts (Nat.lt_succ_self _) n hn)
        (hshorter .group n.rest (Nat.lt_succ_of_le n.length_le) d hd)
    · next h₁ h₂ h₃ h₄ h₅ =>
      cases hs
      refine .nothing ?_
      intro u more hu
      rw [List.cons.injEq] at hu
      rw [← hu.1]
      exact ⟨h₁, h₂, h₃, h₅, fun hop => absurd hop h₄⟩

theorem described_group (hshorter : ∀ p rest, rest.length < ts.length → Described count p rest)
    (hprimary : Described count .primary ts) : Described count .group ts := by
  intro s hs
  rw [Phrase.read] at hs
  cases ts with
  | nil =>
    rw [group] at hs
    cases hs
    exact .unbraced (by simp) (.nothing (by simp))
  | cons t ts =>
    rw [group] at hs
    split at hs
    · next hbrace =>
      obtain ⟨inner, h₁, hs⟩ := exists_of_bind_eq_ok hs
      cases hs
      have hinner := hshorter (.chain true) ts (Nat.lt_succ_self _) inner h₁
      obtain ⟨ws, hclose, hnode, hws⟩ := closes_close count .closeBrace "\x7d" inner
      show Reads count .group (t :: ts) (close count .closeBrace "\x7d" inner).node
        (close count .closeBrace "\x7d" inner).rest
        ([] ++ (close count .closeBrace "\x7d" inner).warnings)
      rw [hnode, hws, List.nil_append]
      exact .braced hbrace hinner hclose
    · next hbrace =>
      refine .unbraced ?_ (hprimary s hs)
      intro u more hu
      rw [List.cons.injEq] at hu
      rw [← hu.1]
      exact hbrace

end

theorem described (count : Nat) (p : Phrase) (ts : List Token) : Described count p ts := by
  induction hlen : ts.length using Nat.strongRecOn generalizing p ts with
  | _ n ih =>
    subst hlen
    have hshorter : ∀ us : List Token, us.length = ts.length →
        ∀ p rest, rest.length < us.length → Described count p rest :=
      fun us hus p rest hlt => ih rest.length (hus ▸ hlt) p rest rfl
    have htail : ∀ additive left rest, rest.length ≤ ts.length →
        Described count (.tail additive left) rest := by
      intro additive left rest hle
      rcases Nat.lt_or_eq_of_le hle with hlt | heq
      · exact ih rest.length hlt _ rest rfl
      · exact described_tail (hshorter rest heq)
    have hprimary : Described count .primary ts := described_primary (hshorter ts rfl)
    have hproduct : Described count (.chain false) ts := described_chain hprimary (htail false)
    cases p with
    | primary => exact hprimary
    | group => exact described_group (hshorter ts rfl) hprimary
    | chain additive =>
      cases additive with
      | false => exact hproduct
      | true => exact described_chain hproduct (htail true)
    | tail additive left => exact htail additive left ts (Nat.le_refl _)

/-! ## Every rule describes a result -/

section
variable {count : Nat} {ts rest rest' : List Token} {n d : Option Expr} {ws ws' : List ParseWarning}

theorem gives_close {kind : TokenKind} {bracket : String} {s : Step ts}
    (h : Closes count kind bracket s.rest rest' ws') :
    (close count kind bracket s).node = s.node ∧ (close count kind bracket s).rest = rest' ∧
      (close count kind bracket s).warnings = s.warnings ++ ws' := by
  obtain ⟨ws, hclose, hnode, hws⟩ := closes_close count kind bracket s
  obtain ⟨hrest, rfl⟩ := hclose.unique h
  exact ⟨hnode, hrest, hws⟩

theorem gives_primary_number {t : Token} {e : Expr} (hk : t.kind = .number)
    (he : numeral t.text = .ok e) (hts : ∀ u more, ts = u :: more → u.kind ≠ .fraction) :
    Gives (primary count (t :: ts)) (some e) ts [] := by
  rw [primary.eq_def]
  dsimp only
  simp only [hk, he, bind_ok]
  cases ts with
  | nil => exact ⟨_, rfl, rfl, rfl, rfl⟩
  | cons u more =>
    simp only [if_neg (hts u more rfl)]
    exact ⟨_, rfl, rfl, rfl, rfl⟩

theorem gives_primary_nothing
    (h : ∀ t more, ts = t :: more → t.kind ≠ .mixed ∧ t.kind ≠ .number ∧ t.kind ≠ .openParen ∧
      t.kind ≠ .fraction ∧ (t.kind = .operator → isMinusGlyph t.text = false)) :
    Gives (primary count ts) none ts [] := by
  cases ts with
  | nil =>
    rw [primary]
    exact ⟨_, rfl, rfl, rfl, rfl⟩
  | cons t more =>
    obtain ⟨h₁, h₂, h₃, h₄, h₅⟩ := h t more rfl
    rw [primary.eq_def]
    dsimp only
    split
    · next hk => exact absurd hk h₁
    · next hk => exact absurd hk h₂
    · next hk => exact absurd hk h₃
    · next hk =>
      rw [if_neg (by rw [h₅ hk]; exact Bool.false_ne_true)]
      exact ⟨_, rfl, rfl, rfl, rfl⟩
    · next hk => exact absurd hk h₄
    · exact ⟨_, rfl, rfl, rfl, rfl⟩

end

theorem gives_of_reads {count : Nat} {p : Phrase} {ts rest : List Token} {n : Option Expr}
    {ws : List ParseWarning} (h : Reads count p ts n rest ws) :
    Gives (p.read count ts) n rest ws := by
  induction h with
  | chain _ _ ih₁ ih₂ =>
    obtain ⟨s, hs, rfl, rfl, rfl⟩ := ih₁
    obtain ⟨s', hs', rfl, rfl, rfl⟩ := ih₂
    rw [read_chain, hs, bind_ok, hs', bind_ok]
    exact ⟨_, rfl, rfl, rfl, rfl⟩
  | @stop additive left ts hop =>
    cases ts with
    | nil =>
      rw [read_tail_nil]
      exact ⟨_, rfl, rfl, rfl, rfl⟩
    | cons t ts =>
      rw [read_tail_cons, hop]
      exact ⟨_, rfl, rfl, rfl, rfl⟩
  | fail hop _ hjoin ih =>
    obtain ⟨s, hs, rfl, rfl, rfl⟩ := ih
    rw [read_tail_cons, hop]
    simp only [hs, bind_ok, hjoin]
    exact ⟨_, rfl, rfl, rfl, rfl⟩
  | more hop _ _ ih₁ ih₂ =>
    obtain ⟨s, hs, hnode, rfl, rfl⟩ := ih₁
    obtain ⟨s', hs', rfl, rfl, rfl⟩ := ih₂
    rw [read_tail_cons, hop]
    simp only [hs, bind_ok, hnode, join, hs']
    exact ⟨_, rfl, rfl, rfl, rfl⟩
  | mixedToken hk he =>
    rw [Phrase.read, primary.eq_def]
    dsimp only
    simp only [hk, he, bind_ok]
    exact ⟨_, rfl, rfl, rfl, rfl⟩
  | numeral hk he hts => exact gives_primary_number hk he hts
  | mixed hk hu _ _ ha hb he ih₁ ih₂ =>
    obtain ⟨s, hs, rfl, rfl, rfl⟩ := ih₁
    obtain ⟨s', hs', rfl, rfl, rfl⟩ := ih₂
    rw [Phrase.read] at hs hs'
    rw [Phrase.read, primary.eq_def]
    dsimp only
    simp only [hk, hu, if_true, hs, hs', bind_ok, ha, hb, he]
    exact ⟨_, rfl, rfl, rfl, rfl⟩
  | givenBack hk hu _ _ hnot he ih₁ ih₂ =>
    obtain ⟨s, hs, rfl, rfl, rfl⟩ := ih₁
    obtain ⟨s', hs', rfl, rfl, rfl⟩ := ih₂
    rw [Phrase.read] at hs hs'
    rw [Phrase.read, primary.eq_def]
    dsimp only
    simp only [hk, hu, if_true, hs, hs', bind_ok, he]
    split
    · next a b ha hb => rcases hnot with h | h <;> simp [h] at ha hb
    · exact ⟨_, rfl, rfl, rfl, rfl⟩
  | bracketed hk _ hclose ih =>
    obtain ⟨s, hs, rfl, rfl, rfl⟩ := ih
    obtain ⟨hnode, hrest, hws⟩ := gives_close hclose
    rw [Phrase.read] at hs
    rw [Phrase.read, primary.eq_def]
    dsimp only
    simp only [hk, hs, bind_ok]
    exact ⟨_, rfl, hnode, hrest, hws⟩
  | signed hk hminus _ ih =>
    obtain ⟨s, hs, rfl, rfl, rfl⟩ := ih
    rw [Phrase.read] at hs
    rw [Phrase.read, primary.eq_def]
    dsimp only
    simp only [hk, hminus, if_true, hs, bind_ok]
    exact ⟨_, rfl, rfl, rfl, rfl⟩
  | fraction hk _ _ ih₁ ih₂ =>
    obtain ⟨s, hs, rfl, rfl, rfl⟩ := ih₁
    obtain ⟨s', hs', rfl, rfl, rfl⟩ := ih₂
    rw [Phrase.read] at hs hs'
    rw [Phrase.read, primary.eq_def]
    dsimp only
    simp only [hk, hs, hs', bind_ok]
    exact ⟨_, rfl, rfl, rfl, rfl⟩
  | nothing h => exact gives_primary_nothing h
  | braced hk _ hclose ih =>
    obtain ⟨s, hs, rfl, rfl, rfl⟩ := ih
    obtain ⟨hnode, hrest, hws⟩ := gives_close hclose
    rw [Phrase.read] at hs
    rw [Phrase.read, group, if_pos hk, hs, bind_ok]
    exact ⟨_, rfl, hnode, hrest, hws⟩
  | @unbraced ts _ _ _ hbrace _ ih =>
    rw [Phrase.read] at ih
    rw [Phrase.read]
    cases ts with
    | nil => rwa [group, ← primary]
    | cons t ts => rwa [group, if_neg (hbrace t ts rfl)]

/-- The rules say exactly what the reader gives. -/
theorem reads_iff {count : Nat} {p : Phrase} {ts rest : List Token} {n : Option Expr}
    {ws : List ParseWarning} :
    Reads count p ts n rest ws ↔ Gives (p.read count ts) n rest ws := by
  constructor
  · exact gives_of_reads
  · rintro ⟨s, hs, rfl, rfl, rfl⟩
    exact described count p ts s hs

/-! ## What is left, and what is made -/

theorem Closes.suffix {count : Nat} {kind : TokenKind} {bracket : String} {ts rest : List Token}
    {ws : List ParseWarning} (h : Closes count kind bracket ts rest ws) : rest <:+ ts := by
  cases h with
  | found _ => exact List.suffix_cons _ _
  | missing _ => exact List.suffix_refl _

theorem Reads.suffix {count : Nat} {p : Phrase} {ts rest : List Token} {n : Option Expr}
    {ws : List ParseWarning} (h : Reads count p ts n rest ws) : rest <:+ ts := by
  induction h with
  | chain _ _ ih₁ ih₂ => exact ih₂.trans ih₁
  | stop _ => exact List.suffix_refl _
  | fail _ _ _ ih => exact ih.trans (List.suffix_cons _ _)
  | more _ _ _ ih₁ ih₂ => exact (ih₂.trans ih₁).trans (List.suffix_cons _ _)
  | mixedToken _ _ => exact List.suffix_cons _ _
  | numeral _ _ _ => exact List.suffix_cons _ _
  | mixed _ _ _ _ _ _ _ ih₁ ih₂ =>
    exact ((ih₂.trans ih₁).trans (List.suffix_cons _ _)).trans (List.suffix_cons _ _)
  | givenBack _ _ _ _ _ _ _ _ => exact List.suffix_cons _ _
  | bracketed _ _ hclose ih => exact (hclose.suffix.trans ih).trans (List.suffix_cons _ _)
  | signed _ _ _ ih => exact ih.trans (List.suffix_cons _ _)
  | fraction _ _ _ ih₁ ih₂ => exact (ih₂.trans ih₁).trans (List.suffix_cons _ _)
  | nothing _ => exact List.suffix_refl _
  | braced _ _ hclose ih => exact (hclose.suffix.trans ih).trans (List.suffix_cons _ _)
  | unbraced _ _ ih => exact ih

theorem numeral_eq_ok {text : String} {e : Expr} (h : numeral text = .ok e) :
    text ≠ "" ∧ e = .numeral text none := by
  unfold numeral at h
  split at h
  · exact absurd h (by simp)
  · next hne => exact ⟨by simpa using hne, (Except.ok.inj h).symm⟩

theorem mixedNumber_eq_ok {w n d : String} {e : Expr} (h : mixedNumber w n d = .ok e) :
    e = .mixed w n d none := by
  unfold mixedNumber at h
  split at h
  · cases h
  · split at h
    · cases h
    · split at h
      · cases h
      · exact (Except.ok.inj h).symm

theorem textsPresent_negate {e : Expr} (h : e.textsPresent = true) :
    (negate e).textsPresent = true := by
  cases e with
  | numeral t q =>
    rw [negate]
    split
    · exact h
    · simp [Expr.textsPresent]
  | binary o l r q => exact h
  | negation a q => exact h
  | fraction n d q => exact h
  | mixed w n d q => exact h

/-- What the reader remarks on while it reads: all but the two remarks on the whole and the
one that it has given up. -/
def isPassing : ParseWarning → Bool
  | .missingBracket _ _ => true
  | .notMixed _ => true
  | _ => false

/-- What is remarked while tokens with a property are read. -/
inductive Remark (ok : Token → Prop) : ParseWarning → Prop where
  | missingParen (i : Nat) : Remark ok (.missingBracket ")" i)
  | missingBrace (i : Nat) : Remark ok (.missingBracket "\x7d" i)
  | notMixed {t : Token} : ok t → t.kind = .number → Remark ok (.notMixed t.text)

theorem Closes.eq_of_mem {count : Nat} {kind : TokenKind} {bracket : String} {ts rest : List Token}
    {ws : List ParseWarning} (h : Closes count kind bracket ts rest ws) :
    ∀ w ∈ ws, ∃ i, w = .missingBracket bracket i := by
  cases h with
  | found _ => simp
  | missing _ => exact fun w hw => ⟨_, List.mem_singleton.1 hw⟩

theorem Reads.remark_of_mem {ok : Token → Prop} {count : Nat} {p : Phrase} {ts rest : List Token}
    {n : Option Expr} {ws : List ParseWarning} (h : Reads count p ts n rest ws)
    (hok : ∀ t ∈ ts, ok t) : ∀ w ∈ ws, Remark ok w := by
  have happend : ∀ {us vs : List ParseWarning}, (∀ w ∈ us, Remark ok w) →
      (∀ w ∈ vs, Remark ok w) → ∀ w ∈ us ++ vs, Remark ok w :=
    fun hus hvs w hw => (List.mem_append.1 hw).elim (hus w) (hvs w)
  have hsuffix : ∀ {us vs : List Token}, us <:+ vs → (∀ t ∈ vs, ok t) → ∀ t ∈ us, ok t :=
    fun hs hvs t ht => hvs t (hs.subset ht)
  induction h with
  | chain h₁ _ ih₁ ih₂ => exact happend (ih₁ hok) (ih₂ (hsuffix h₁.suffix hok))
  | stop _ => simp
  | fail _ _ _ ih => exact ih (hsuffix (List.suffix_cons _ _) hok)
  | more _ h₁ _ ih₁ ih₂ =>
    have hts := hsuffix (List.suffix_cons _ _) hok
    exact happend (ih₁ hts) (ih₂ (hsuffix h₁.suffix hts))
  | mixedToken _ _ => simp
  | numeral _ _ _ => simp
  | @mixed t u _ _ _ _ _ _ _ _ _ _ _ _ h₁ _ _ _ _ ih₁ ih₂ =>
    have hts := hsuffix ((List.suffix_cons u _).trans (List.suffix_cons t _)) hok
    exact happend (ih₁ hts) (ih₂ (hsuffix h₁.suffix hts))
  | @givenBack t u _ _ _ _ _ _ _ _ hk _ h₁ _ _ _ ih₁ ih₂ =>
    have hts := hsuffix ((List.suffix_cons u _).trans (List.suffix_cons t _)) hok
    refine happend (happend (ih₁ hts) (ih₂ (hsuffix h₁.suffix hts))) fun w hw => ?_
    rw [List.mem_singleton.1 hw]
    exact .notMixed (hok t List.mem_cons_self) hk
  | bracketed _ _ hclose ih =>
    refine happend (ih (hsuffix (List.suffix_cons _ _) hok)) fun w hw => ?_
    obtain ⟨i, rfl⟩ := hclose.eq_of_mem w hw
    exact .missingParen i
  | signed _ _ _ ih => exact ih (hsuffix (List.suffix_cons _ _) hok)
  | fraction _ h₁ _ ih₁ ih₂ =>
    have hts := hsuffix (List.suffix_cons _ _) hok
    exact happend (ih₁ hts) (ih₂ (hsuffix h₁.suffix hts))
  | nothing _ => simp
  | braced _ _ hclose ih =>
    refine happend (ih (hsuffix (List.suffix_cons _ _) hok)) fun w hw => ?_
    obtain ⟨i, rfl⟩ := hclose.eq_of_mem w hw
    exact .missingBrace i
  | unbraced _ _ ih => exact ih hok

theorem Reads.passing_of_mem {count : Nat} {p : Phrase} {ts rest : List Token} {n : Option Expr}
    {ws : List ParseWarning} (h : Reads count p ts n rest ws) :
    ∀ w ∈ ws, isPassing w = true := by
  intro w hw
  have hremark : Remark (fun _ => True) w := h.remark_of_mem (fun _ _ => trivial) w hw
  cases hremark <;> rfl

/-- The nodes that are made of tokens with a property have a property of their own:
each way of making a node keeps it. -/
structure Closed (ok : Token → Prop) (P : Expr → Prop) : Prop where
  numeral : ∀ t, ok t → t.kind = .number → P (.numeral t.text none)
  mixedToken : ∀ t e, ok t → t.kind = .mixed → Parser.mixedToken t.text = .ok e → P e
  mixed : ∀ t n d a b, ok t → t.kind = .number → P n → P d → bareInteger? (some n) = some a →
    bareInteger? (some d) = some b → P (.mixed t.text a b none)
  binary : ∀ op l r, P l → P r → P (.binary op l r none)
  negate : ∀ e, P e → P (negate e)
  fraction : ∀ n d, P n → P d → P (.fraction n d none)

/-- The property of the operands that a phrase starts from. -/
def Phrase.Starts (P : Expr → Prop) : Phrase → Prop
  | .tail _ (some left) => P left
  | _ => True

theorem Reads.closed {ok : Token → Prop} {P : Expr → Prop} (hc : Closed ok P) {count : Nat}
    {p : Phrase} {ts rest : List Token} {n : Option Expr} {ws : List ParseWarning}
    (h : Reads count p ts n rest ws) (hok : ∀ t ∈ ts, ok t) (hp : p.Starts P) :
    ∀ e, n = some e → P e := by
  have hsuffix : ∀ {us vs : List Token}, us <:+ vs → (∀ t ∈ vs, ok t) → ∀ t ∈ us, ok t :=
    fun hs hvs t ht => hvs t (hs.subset ht)
  induction h with
  | @chain additive _ _ _ n _ _ _ h₁ _ ih₁ ih₂ =>
    have hfirst := ih₁ hok (by cases additive <;> trivial)
    refine ih₂ (hsuffix h₁.suffix hok) ?_
    cases n with
    | none => trivial
    | some left => exact hfirst left rfl
  | @stop _ left _ _ =>
    rintro e rfl
    exact hp
  | fail _ _ _ _ => simp
  | @more additive _ _ _ _ _ _ _ _ _ _ _ h₁ _ ih₁ ih₂ =>
    have hts := hsuffix (List.suffix_cons _ _) hok
    have hright := ih₁ hts (by cases additive <;> trivial) _ rfl
    exact ih₂ (hsuffix h₁.suffix hts) (hc.binary _ _ _ hp hright)
  | mixedToken hk he =>
    rintro _ ⟨⟩
    exact hc.mixedToken _ _ (hok _ List.mem_cons_self) hk he
  | numeral hk he _ =>
    rintro _ ⟨⟩
    rw [(numeral_eq_ok he).2]
    exact hc.numeral _ (hok _ List.mem_cons_self) hk
  | @mixed t u ts rest _ n d a b _ _ _ hk _ h₁ _ ha hb he ih₁ ih₂ =>
    have hts := hsuffix ((List.suffix_cons u ts).trans (List.suffix_cons t _)) hok
    rintro _ ⟨⟩
    cases n with
    | none => simp [bareInteger?] at ha
    | some n =>
      cases d with
      | none => simp [bareInteger?] at hb
      | some d =>
        rw [mixedNumber_eq_ok he]
        exact hc.mixed t n d a b (hok _ List.mem_cons_self) hk (ih₁ hts trivial n rfl)
          (ih₂ (hsuffix h₁.suffix hts) trivial d rfl) ha hb
  | givenBack hk _ _ _ _ he _ _ =>
    rintro _ ⟨⟩
    rw [(numeral_eq_ok he).2]
    exact hc.numeral _ (hok _ List.mem_cons_self) hk
  | bracketed _ _ _ ih => exact ih (hsuffix (List.suffix_cons _ _) hok) trivial
  | signed _ _ _ ih =>
    intro e he
    obtain ⟨arg, rfl, rfl⟩ := Option.map_eq_some_iff.1 he
    exact hc.negate arg (ih (hsuffix (List.suffix_cons _ _) hok) trivial arg rfl)
  | @fraction _ _ _ _ n d _ _ _ h₁ _ ih₁ ih₂ =>
    have hts := hsuffix (List.suffix_cons _ _) hok
    intro e he
    cases n with
    | none => simp [pair] at he
    | some n =>
      cases d with
      | none => simp [pair] at he
      | some d =>
        rw [pair, Option.some.injEq] at he
        rw [← he]
        exact hc.fraction n d (ih₁ hts trivial n rfl)
          (ih₂ (hsuffix h₁.suffix hts) trivial d rfl)
  | nothing _ => simp
  | braced _ _ _ ih => exact ih (hsuffix (List.suffix_cons _ _) hok) trivial
  | unbraced _ _ ih => exact ih hok trivial

end Parser
end FormulaMap

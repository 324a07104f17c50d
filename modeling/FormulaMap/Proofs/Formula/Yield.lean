/-
Reading loses nothing, repeats nothing and keeps the order.

The yield of an expression is the row of numerals and operator symbols that a reader
says aloud, brackets left out.  Tokens have a yield as well, and `yield_ofString` says
that an expression that was read yields what the tokens in front of the reader's last
position yield, whatever was remarked on the way: a missing bracket takes no token, and
a fraction that is given back is not counted.  That position is remarked upon exactly
when tokens are left behind it.

The induction is over the rules of the reader.  The operands of a chain that are still
to be read come after `left`, whose yield was counted before, so the statement starts
from it (`Phrase.spoken`).
-/
import FormulaMap.Proofs.Formula.Rereading

namespace FormulaMap

namespace Token

/-- What a token adds to the yield; brackets and fraction commands add nothing. -/
def yield (t : Token) : List String :=
  match t.kind with
  | .number => [t.text]
  | .mixed =>
    match mixedParts t.text with
    | .ok (w, n, d) => [w, n, d]
    | .error _ => []
  | .operator => [normalizeOperator t.text]
  | _ => []

end Token

namespace Expr

/-- A sign that is part of a numeral is told apart from its digits. -/
def numeralYield (t : String) : List String :=
  match t.toList with
  | '-' :: cs => ["-", String.ofList cs]
  | _ => [t]

/-- The numerals and operator symbols in reading order. -/
def yield : Expr → List String
  | numeral t _ => numeralYield t
  | binary o l r _ => l.yield ++ o.symbol :: r.yield
  | negation a _ => "-" :: a.yield
  | fraction n d _ => n.yield ++ d.yield
  | mixed w n d _ => [w, n, d]

theorem numeralYield_of_unsigned {t : String} (h : t.startsWith "-" = false) :
    numeralYield t = [t] := by
  unfold numeralYield
  split
  · next cs heq =>
    rw [startsWith_minus_iff.2 ⟨cs, heq⟩] at h
    exact absurd h (by decide)
  · rfl

theorem numeralYield_signed (t : String) : numeralYield ("-" ++ t) = ["-", t] := by
  have hlist : ("-" ++ t).toList = '-' :: t.toList := by simp
  unfold numeralYield
  rw [hlist]
  simp

end Expr

namespace Parser

open FormulaMap.Expr Token

/-- A sign adds a minus to the yield, whether it becomes part of a numeral or not. -/
theorem yield_negate (e : Expr) : (negate e).yield = "-" :: e.yield := by
  cases e with
  | numeral t p =>
    cases ht : t.startsWith "-" with
    | true =>
      rw [negate, ht, if_pos rfl]
      rfl
    | false =>
      rw [negate, ht, if_neg Bool.false_ne_true, Expr.yield, Expr.yield, numeralYield_signed,
        numeralYield_of_unsigned ht]
  | binary o l r p => rfl
  | negation a p => rfl
  | fraction n d p => rfl
  | mixed w n d p => rfl

theorem eq_symbol_of_ofSymbol? {s : String} {op : BinaryOperation}
    (h : BinaryOperation.ofSymbol? s = some op) : s = op.symbol := by
  unfold BinaryOperation.ofSymbol? at h
  split at h
  · next hs => cases h; exact beq_iff_eq.1 hs
  · split at h
    · next hs => cases h; exact beq_iff_eq.1 hs
    · split at h
      · next hs => cases h; exact beq_iff_eq.1 hs
      · split at h
        · next hs => cases h; exact beq_iff_eq.1 hs
        · cases h

theorem yield_of_leading? {t : Token} {ts : List Token} {additive : Bool} {op : BinaryOperation}
    (h : leading? additive (t :: ts) = some op) : t.yield = [op.symbol] := by
  have hkind := kind_of_leading? h
  rw [leading?, Option.filter_eq_some_iff] at h
  have hop := h.1
  rw [operation?, if_pos hkind] at hop
  simp only [Token.yield, hkind]
  rw [eq_symbol_of_ofSymbol? hop]

theorem yield_of_minus {t : Token} (hk : t.kind = .operator) (hminus : isMinusGlyph t.text = true) :
    t.yield = ["-"] := by
  simp only [Token.yield, hk]
  rw [isMinusGlyph, Bool.or_eq_true, beq_iff_eq, beq_iff_eq] at hminus
  rcases hminus with h | h <;> rw [h] <;> decide

/-- A bare integer has no sign. -/
theorem yield_of_bareInteger? {n : Option Expr} {a : String} (h : bareInteger? n = some a) :
    ∃ e, n = some e ∧ e.yield = [a] := by
  unfold bareInteger? at h
  split at h
  · next t p =>
    refine ⟨_, rfl, ?_⟩
    dsimp only at h
    rw [Option.ite_none_right_eq_some] at h
    obtain ⟨hdigits, ha⟩ := h
    cases ha
    refine numeralYield_of_unsigned (Bool.eq_false_iff.2 fun hminus => ?_)
    obtain ⟨cs, hcs⟩ := startsWith_minus_iff.1 hminus
    rw [hcs] at hdigits
    split at hdigits
    · cases cs with
      | nil => exact absurd hdigits (by decide)
      | cons c cs => exact absurd hdigits (by simp [Text.isNumber, Text.isAsciiDigit])
    · exact absurd hdigits (by simp [Text.isNumber, Text.isAsciiDigit])
  · cases h

theorem yield_of_mixedToken {t : Token} {e : Expr} (hk : t.kind = .mixed)
    (h : mixedToken t.text = .ok e) : e.yield = t.yield := by
  unfold mixedToken at h
  split at h
  · next w n d heq =>
    have hyield : t.yield = [w, n, d] := by simp only [Token.yield, hk, heq]
    rw [hyield, mixedNumber_eq_ok h]
    rfl
  · cases h

/-! ## What has been used -/

/-- What was counted before a phrase is read. -/
def Phrase.spoken : Phrase → List String
  | .tail _ (some left) => left.yield
  | _ => []

theorem spoken_operand (additive : Bool) : (Phrase.operand additive).spoken = [] := by
  cases additive <;> rfl

/-- The tokens between `ts` and `rest` yield `ys`. -/
def Uses (ts rest : List Token) (ys : List String) : Prop :=
  ∃ used, ts = used ++ rest ∧ used.flatMap Token.yield = ys

section
variable {t : Token} {ts rest rest' : List Token} {ys zs : List String}

theorem Uses.nil : Uses ts ts [] := ⟨[], rfl, rfl⟩

theorem Uses.cons (h : Uses ts rest ys) : Uses (t :: ts) rest (t.yield ++ ys) := by
  obtain ⟨used, rfl, rfl⟩ := h
  exact ⟨t :: used, rfl, List.flatMap_cons⟩

theorem Uses.append (h : Uses ts rest ys) (h' : Uses rest rest' zs) : Uses ts rest' (ys ++ zs) := by
  obtain ⟨used, rfl, rfl⟩ := h
  obtain ⟨used', rfl, rfl⟩ := h'
  exact ⟨used ++ used', (List.append_assoc _ _ _).symm, List.flatMap_append⟩

/-- A token that is no numeral or operator is passed over. -/
theorem Uses.skip (h : Uses ts rest ys) (ht : t.yield = []) : Uses (t :: ts) rest ys := by
  have hcons := h.cons (t := t)
  rwa [ht, List.nil_append] at hcons

theorem Uses.token : Uses (t :: ts) ts t.yield := ⟨[t], rfl, List.flatMap_singleton _ t⟩

end

theorem Closes.uses {count : Nat} {kind : TokenKind} {bracket : String} {ts rest : List Token}
    {ws : List ParseWarning} (h : Closes count kind bracket ts rest ws)
    (hk : kind = .closeParen ∨ kind = .closeBrace) : Uses ts rest [] := by
  cases h with
  | found hfound =>
    refine Uses.nil.skip ?_
    rcases hk with hk | hk <;> simp only [Token.yield, hfound, hk]
  | missing _ => exact .nil

/-- A chain without a first operand makes nothing. -/
theorem Reads.tail_none {count : Nat} {additive : Bool} {ts rest : List Token} {n : Option Expr}
    {ws : List ParseWarning} (h : Reads count (.tail additive none) ts n rest ws) : n = none := by
  cases h with
  | stop _ => rfl
  | fail _ _ _ => rfl

theorem pair_eq_some {n d : Option Expr} {e : Expr} (h : pair n d = some e) :
    ∃ en ed, n = some en ∧ d = some ed ∧ e = .fraction en ed none := by
  unfold pair at h
  split at h
  · next en ed => exact ⟨en, ed, rfl, rfl, (Option.some.inj h).symm⟩
  · cases h

/-- What a phrase makes yields what was counted before and what its tokens yield. -/
theorem Reads.uses {count : Nat} {p : Phrase} {ts rest : List Token} {n : Option Expr}
    {ws : List ParseWarning} (h : Reads count p ts n rest ws)
    (hts : ∀ t ∈ ts, t.kind = .number → t.text.startsWith "-" = false) {e : Expr}
    (he : n = some e) : ∃ ys, Uses ts rest ys ∧ e.yield = p.spoken ++ ys := by
  have hmono : ∀ {us vs : List Token}, us <:+ vs →
      (∀ t ∈ vs, t.kind = .number → t.text.startsWith "-" = false) →
      ∀ t ∈ us, t.kind = .number → t.text.startsWith "-" = false :=
    fun hs hvs t ht => hvs t (hs.subset ht)
  have hnumber : ∀ {t : Token} {us : List Token}, t.kind = .number →
      (∀ u ∈ t :: us, u.kind = .number → u.text.startsWith "-" = false) →
      numeralYield t.text = t.yield := by
    intro t us hk hus
    simp only [Token.yield, hk]
    exact numeralYield_of_unsigned (hus t List.mem_cons_self hk)
  induction h generalizing e with
  | @chain additive ts rest rest' n n' ws ws' h₁ h₂ ih₁ ih₂ =>
    cases n with
    | none => exact absurd (h₂.tail_none.symm.trans he) (by simp)
    | some left =>
      obtain ⟨ys, hys, hleft⟩ := ih₁ hts rfl
      obtain ⟨zs, hzs, hall⟩ := ih₂ (hmono h₁.suffix hts) he
      refine ⟨_, hys.append hzs, ?_⟩
      rw [spoken_operand, List.nil_append] at hleft
      rw [hall, ← hleft]
      rfl
  | stop _ =>
    rw [he]
    exact ⟨[], .nil, (List.append_nil _).symm⟩
  | fail _ _ _ _ => cases he
  | @more additive left right t op ts rest rest' n ws ws' hop h₁ h₂ ih₁ ih₂ =>
    have hts' := hmono (List.suffix_cons t ts) hts
    obtain ⟨ys, hys, hright⟩ := ih₁ hts' rfl
    obtain ⟨zs, hzs, hall⟩ := ih₂ (hmono h₁.suffix hts') he
    refine ⟨_, (hys.append hzs).cons, ?_⟩
    rw [spoken_operand, List.nil_append] at hright
    rw [hall, yield_of_leading? hop, Phrase.spoken, Phrase.spoken, Expr.yield, hright]
    simp only [List.append_assoc, List.cons_append, List.nil_append]
  | mixedToken hk hmade =>
    cases he
    exact ⟨_, .token, yield_of_mixedToken hk hmade⟩
  | numeral hk hmade _ =>
    cases he
    rw [(numeral_eq_ok hmade).2]
    exact ⟨_, .token, hnumber hk hts⟩
  | @mixed t u ts rest rest' n d a b e' ws ws' hk hu h₁ h₂ ha hb hmade ih₁ ih₂ =>
    cases he
    have hts' := hmono ((List.suffix_cons u ts).trans (List.suffix_cons t _)) hts
    obtain ⟨en, hen, hna⟩ := yield_of_bareInteger? ha
    obtain ⟨ed, hed, hdb⟩ := yield_of_bareInteger? hb
    obtain ⟨ys, hys, hn⟩ := ih₁ hts' hen
    obtain ⟨zs, hzs, hd⟩ := ih₂ (hmono h₁.suffix hts') hed
    refine ⟨_, ((hys.append hzs).skip (by simp only [Token.yield, hu])).cons, ?_⟩
    rw [hna] at hn
    rw [hdb] at hd
    rw [mixedNumber_eq_ok hmade]
    simp only [Phrase.spoken, List.nil_append] at hn hd
    simp only [Token.yield, hk, Expr.yield, Phrase.spoken, ← hn, ← hd, List.nil_append,
      List.cons_append]
  | givenBack hk _ _ _ _ hmade _ _ =>
    cases he
    rw [(numeral_eq_ok hmade).2]
    exact ⟨_, .token, hnumber hk hts⟩
  | @bracketed t ts rest rest' n ws ws' hk h₁ hclose ih =>
    obtain ⟨ys, hys, hyield⟩ := ih (hmono (List.suffix_cons t ts) hts) he
    refine ⟨_, (hys.append (hclose.uses (Or.inl rfl))).skip (by simp only [Token.yield, hk]), ?_⟩
    rw [hyield, List.append_nil]
    rfl
  | @signed t ts rest n ws hk hminus h₁ ih =>
    obtain ⟨arg, harg, rfl⟩ := Option.map_eq_some_iff.1 he
    obtain ⟨ys, hys, hyield⟩ := ih (hmono (List.suffix_cons t ts) hts) harg
    refine ⟨_, hys.cons, ?_⟩
    rw [yield_negate, hyield, yield_of_minus hk hminus]
    rfl
  | @fraction t ts rest rest' n d ws ws' hk h₁ h₂ ih₁ ih₂ =>
    have hts' := hmono (List.suffix_cons t ts) hts
    obtain ⟨en, ed, rfl, rfl, rfl⟩ := pair_eq_some he
    obtain ⟨ys, hys, hn⟩ := ih₁ hts' rfl
    obtain ⟨zs, hzs, hd⟩ := ih₂ (hmono h₁.suffix hts') rfl
    refine ⟨_, (hys.append hzs).skip (by simp only [Token.yield, hk]), ?_⟩
    rw [Expr.yield, hn, hd]
    rfl
  | nothing _ => cases he
  | @braced t ts rest rest' n ws ws' hk h₁ hclose ih =>
    obtain ⟨ys, hys, hyield⟩ := ih (hmono (List.suffix_cons t ts) hts) he
    refine ⟨_, (hys.append (hclose.uses (Or.inr rfl))).skip (by simp only [Token.yield, hk]), ?_⟩
    rw [hyield, List.append_nil]
    rfl
  | unbraced _ _ ih => exact ih hts he

/-- The reader remarks on what is left behind only when it is done. -/
theorem Reads.trailing_not_mem {count : Nat} {p : Phrase} {ts rest : List Token} {n : Option Expr}
    {ws : List ParseWarning} (h : Reads count p ts n rest ws) (i : Nat) :
    .trailing i ∉ ws := by
  intro hmem
  exact Bool.false_ne_true (h.passing_of_mem _ hmem)

/-- How many tokens have been used. -/
def Step.cursor {ts : List Token} (s : Step ts) : Nat := ts.length - s.rest.length

theorem Step.cursor_lt_iff {ts : List Token} (s : Step ts) :
    s.cursor < ts.length ↔ s.rest ≠ [] := by
  have hle := s.length_le
  rw [Step.cursor, ne_eq, ← List.length_eq_zero_iff]
  omega

end Parser

namespace Parsed

open FormulaMap.Parser Token

theorem ofString_eq (s : String) : ofString s = ofTokens (lex s.toList) := rfl

theorem sum_of_ofTokens {ts : List Token} {e : Expr} (h : (ofTokens ts).expr = some e) :
    ∃ step : Step ts, sum ts.length ts = .ok step ∧ step.node = some e ∧
      (ofTokens ts).warnings =
        step.warnings ++ if step.rest.isEmpty then [] else [.trailing step.cursor] := by
  unfold ofTokens at h ⊢
  split at h
  · next step hsum =>
    rw [hsum]
    unfold ofStep at h ⊢
    split at h
    · next e' hnode =>
      cases h
      exact ⟨step, rfl, hnode, rfl⟩
    · cases h
  · cases h

/-- An expression that was read yields what the tokens before the last position of the
reader yield, and that position is remarked on exactly when tokens are left behind it. -/
theorem yield_ofString {s : String} {e : Expr} (h : (ofString s).expr = some e) :
    ∃ step : Step (lex s.toList), sum (lex s.toList).length (lex s.toList) = .ok step ∧
      step.node = some e ∧ step.rest = (lex s.toList).drop step.cursor ∧
      e.yield = ((lex s.toList).take step.cursor).flatMap Token.yield ∧
      ∀ i, .trailing i ∈ (ofString s).warnings ↔
        i = step.cursor ∧ step.cursor < (lex s.toList).length := by
  rw [ofString_eq] at h ⊢
  obtain ⟨step, hsum, hnode, hwarnings⟩ := sum_of_ofTokens h
  have hreads : Reads (lex s.toList).length (.chain true) (lex s.toList) step.node step.rest
      step.warnings := described _ (.chain true) _ step hsum
  have hunsigned : ∀ t ∈ lex s.toList, t.kind = .number → t.text.startsWith "-" = false :=
    fun t ht hk => Expr.not_startsWith_minus_of_isRun ((spelt_of_mem_lex t ht).number hk)
  obtain ⟨ys, ⟨used, hused, rfl⟩, hyield⟩ := hreads.uses hunsigned hnode
  have hcursor : used.length = step.cursor := by
    have hlength := congrArg List.length hused
    rw [List.length_append] at hlength
    rw [Step.cursor]
    omega
  have htaken : (lex s.toList).take step.cursor = used := by
    rw [← hcursor]
    exact List.prefix_iff_eq_take.1 ⟨step.rest, hused.symm⟩ |>.symm
  refine ⟨step, hsum, hnode, List.suffix_iff_eq_drop.1 hreads.suffix, ?_, ?_⟩
  · rw [htaken]
    exact hyield
  · intro i
    have hnone := hreads.trailing_not_mem i
    rw [step.cursor_lt_iff, hwarnings]
    cases hrest : step.rest <;> simp [hnone]

/-- A bracket that is not closed, a fraction that is given back, and a sign that becomes
part of the numeral before it: three tokens are used and the rest is left behind. -/
theorem yield_of_unclosed :
    let s := "−(2\\frac{1+1}{3}"
    (ofString s).expr = some (.numeral "-2" none) ∧
      ∃ step : Step (lex s.toList), sum (lex s.toList).length (lex s.toList) = .ok step ∧
        step.node = some (.numeral "-2" none) ∧ step.rest = (lex s.toList).drop step.cursor ∧
        ["-", "2"] = ((lex s.toList).take step.cursor).flatMap Token.yield ∧
        ∀ i, .trailing i ∈ (ofString s).warnings ↔
          i = step.cursor ∧ step.cursor < (lex s.toList).length := by
  have hread : (ofString "−(2\\frac{1+1}{3}").expr = some (.numeral "-2" none) := by
    decide +kernel
  exact ⟨hread, yield_ofString hread⟩

end Parsed
end FormulaMap

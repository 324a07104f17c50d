/-
The grammar of expressions, and that the reader accepts it.

`Derives p ts e` is the grammar as a maintainer would write it down: sums are chains
of products, products are chains of primaries, a primary is a numeral, a mixed
number in either spelling, a bracketed sum, a sign before a primary, or a fraction
of two sums in braces.  `ofTokens_of_derives` says that the reader returns exactly
the tree of a derivation and remarks nothing.

The induction is over derivations and speaks of what may follow.  A chain has read
its operands but not yet looked at what comes next, so its statement hands the
rest over to the tail that is still to be read; a token after a number matters as
well, since a fraction there would make a mixed number.
-/
import FormulaMap.Proofs.Formula.Reading

namespace FormulaMap
namespace Parser

/-- A numeral as it stands in a formula: a digit comes first. -/
def StartsWithDigit (s : String) : Prop := ∃ c cs, s.toList = c :: cs ∧ Text.isDigit c = true

theorem StartsWithDigit.ne_empty {s : String} (h : StartsWithDigit s) : s ≠ "" := by
  rintro rfl
  obtain ⟨c, cs, heq, _⟩ := h
  simp at heq

/-- Derivations of a primary or of a chain of operands. -/
inductive Derives : Phrase → List Token → Expr → Prop where
  | operand {additive : Bool} {ts : List Token} {e : Expr} :
      Derives (.operand additive) ts e → Derives (.chain additive) ts e
  | join {additive : Bool} {t : Token} {op : BinaryOperation} {ts us : List Token} {l r : Expr} :
      Derives (.chain additive) ts l → leading? additive [t] = some op →
      Derives (.operand additive) us r →
      Derives (.chain additive) (ts ++ t :: us) (.binary op l r none)
  | numeral {t : Token} :
      t.kind = .number → StartsWithDigit t.text → Derives .primary [t] (.numeral t.text none)
  | mixedToken {t : Token} {w n d : String} :
      t.kind = .mixed → Token.mixedParts t.text = .ok (w, n, d) → w ≠ "" → n ≠ "" → d ≠ "" →
      Derives .primary [t] (.mixed w n d none)
  | mixed {w f o n c o' d c' : Token} :
      w.kind = .number → StartsWithDigit w.text → f.kind = .fraction →
      o.kind = .openBrace → n.kind = .number → Text.isNumber n.text.toList = true →
      c.kind = .closeBrace →
      o'.kind = .openBrace → d.kind = .number → Text.isNumber d.text.toList = true →
      c'.kind = .closeBrace →
      Derives .primary [w, f, o, n, c, o', d, c'] (.mixed w.text n.text d.text none)
  | bracketed {o c : Token} {ts : List Token} {e : Expr} :
      o.kind = .openParen → Derives (.chain true) ts e → c.kind = .closeParen →
      Derives .primary (o :: ts ++ [c]) e
  | signed {t : Token} {ts : List Token} {e : Expr} :
      t.kind = .operator → isMinusGlyph t.text = true → Derives .primary ts e →
      Derives .primary (t :: ts) (negate e)
  | fraction {f o c o' c' : Token} {ts us : List Token} {n d : Expr} :
      f.kind = .fraction →
      o.kind = .openBrace → Derives (.chain true) ts n → c.kind = .closeBrace →
      o'.kind = .openBrace → Derives (.chain true) us d → c'.kind = .closeBrace →
      Derives .primary (f :: o :: ts ++ c :: o' :: us ++ [c']) (.fraction n d none)

theorem Derives.chain_of_primary {ts : List Token} {e : Expr} (h : Derives .primary ts e)
    (additive : Bool) : Derives (.chain additive) ts e := by
  cases additive with
  | false => exact .operand h
  | true => exact .operand (.operand h)

theorem Derives.operand_of_primary {ts : List Token} {e : Expr} (h : Derives .primary ts e)
    (additive : Bool) : Derives (.operand additive) ts e := by
  cases additive with
  | false => exact h
  | true => exact h.chain_of_primary false

/-! ## What may follow -/

/-- After a primary no fraction may follow, which could belong to a number. -/
def NoFraction (ts : List Token) : Prop := ∀ t more, ts = t :: more → t.kind ≠ .fraction

/-- What may follow an operand of a chain: an operand of a sum is a product, which
an operation of its own kind would continue. -/
def MayFollow (additive : Bool) (ts : List Token) : Prop :=
  NoFraction ts ∧ (additive = true → leading? false ts = none)

theorem noFraction_of_kind {t : Token} {ts : List Token} (h : t.kind ≠ .fraction) :
    NoFraction (t :: ts) := by
  intro u more heq
  rw [List.cons.injEq] at heq
  rw [← heq.1]
  exact h

theorem leading?_of_kind {t : Token} {ts : List Token} (additive : Bool) (h : t.kind ≠ .operator) :
    leading? additive (t :: ts) = none := by
  simp [leading?, Token.operation?, h]

theorem kind_of_leading? {t : Token} {ts : List Token} {additive : Bool} {op : BinaryOperation}
    (h : leading? additive (t :: ts) = some op) : t.kind = .operator := by
  by_cases hk : t.kind = .operator
  · exact hk
  · rw [leading?_of_kind additive hk] at h
    exact absurd h (by simp)

theorem leading?_other {t : Token} {ts us : List Token} {additive : Bool} {op : BinaryOperation}
    (h : leading? additive (t :: ts) = some op) : leading? (!additive) (t :: us) = none := by
  rw [leading?, Option.filter_eq_some_iff] at h
  obtain ⟨hop, hadd⟩ := h
  rw [beq_iff_eq] at hadd
  rw [leading?, hop, Option.filter_some, hadd]
  cases additive <;> rfl

theorem mayFollow_of_kind {t : Token} {ts : List Token} (additive : Bool)
    (hf : t.kind ≠ .fraction) (ho : t.kind ≠ .operator) : MayFollow additive (t :: ts) :=
  ⟨noFraction_of_kind hf, fun _ => leading?_of_kind false ho⟩

theorem mayFollow_of_leading? {t : Token} {ts us : List Token} {additive : Bool}
    {op : BinaryOperation} (h : leading? additive (t :: ts) = some op) :
    MayFollow additive (t :: us) := by
  refine ⟨noFraction_of_kind ?_, ?_⟩
  · rw [kind_of_leading? h]
    decide
  · rintro rfl
    exact leading?_other h

/-! ## Completeness -/

/-- What the reader does on a derived phrase.  A chain is said to be read as far as
its last operand: whatever its tail then gives is what the chain gives. -/
def Accepts (count : Nat) : Phrase → List Token → Expr → Prop
  | .primary, ts, e => ∀ rest, NoFraction rest → Reads count .primary (ts ++ rest) (some e) rest []
  | .chain additive, ts, e => ∀ rest n rest' ws, MayFollow additive rest →
      Reads count (.tail additive (some e)) rest n rest' ws →
      Reads count (.chain additive) (ts ++ rest) n rest' ws
  | _, _, _ => True

section
variable {count : Nat} {ts rest : List Token} {e : Expr}

/-- A chain ends where no operation of its class comes next. -/
theorem Accepts.reads_chain {additive : Bool} (h : Accepts count (.chain additive) ts e)
    (hfollow : MayFollow additive rest) (hstop : leading? additive rest = none) :
    Reads count (.chain additive) (ts ++ rest) (some e) rest [] :=
  h rest (some e) rest [] hfollow (.stop hstop)

theorem Accepts.reads_operand {additive : Bool} (h : Accepts count (.operand additive) ts e)
    (hfollow : MayFollow additive rest) :
    Reads count (.operand additive) (ts ++ rest) (some e) rest [] := by
  cases additive with
  | false => exact h rest hfollow.1
  | true =>
    have hproduct : Accepts count (.chain false) ts e := h
    refine hproduct.reads_chain ⟨hfollow.1, ?_⟩ (hfollow.2 rfl)
    intro hfalse
    exact absurd hfalse Bool.false_ne_true

/-- A sum in front of a closing bracket is read to its end. -/
theorem Accepts.reads_sum {c : Token} (h : Accepts count (.chain true) ts e)
    (hf : c.kind ≠ .fraction) (ho : c.kind ≠ .operator) :
    Reads count (.chain true) (ts ++ c :: rest) (some e) (c :: rest) [] :=
  h.reads_chain (mayFollow_of_kind true hf ho) (leading?_of_kind true ho)

theorem Accepts.chain {additive : Bool} (h : Accepts count (.operand additive) ts e) :
    Accepts count (.chain additive) ts e :=
  fun _ _ _ _ hfollow htail => .chain (h.reads_operand hfollow) htail

theorem Accepts.sum (h : Accepts count .primary ts e) : Accepts count (.chain true) ts e := by
  have hproduct : Accepts count (.chain false) ts e := @Accepts.chain count ts e false h
  exact @Accepts.chain count ts e true hproduct

theorem Accepts.reads_group {o c : Token} (h : Accepts count (.chain true) ts e)
    (ho : o.kind = .openBrace) (hc : c.kind = .closeBrace) :
    Reads count .group (o :: (ts ++ c :: rest)) (some e) rest [] :=
  .braced ho (h.reads_sum (by rw [hc]; decide) (by rw [hc]; decide)) (.found hc)

end

theorem numeral_of_ne {s : String} (h : s ≠ "") : numeral s = .ok (.numeral s none) := by
  rw [numeral, if_neg]
  rwa [String.isEmpty_iff]

theorem mixedNumber_of_ne {w n d : String} (hw : w ≠ "") (hn : n ≠ "") (hd : d ≠ "") :
    mixedNumber w n d = .ok (.mixed w n d none) := by
  rw [ne_eq, ← String.isEmpty_iff] at hw hn hd
  rw [mixedNumber, if_neg hw, if_neg hn, if_neg hd]

/-- Digits without a line feed after them are a bare integer. -/
theorem bareInteger?_of_isNumber {s : String} (h : Text.isNumber s.toList = true) :
    bareInteger? (some (.numeral s none)) = some s := by
  have hlast : s.toList.getLast? ≠ some '\n' := by
    intro hlast
    rw [Text.isNumber, Bool.and_eq_true, List.all_eq_true] at h
    exact absurd (h.2 _ (List.mem_of_getLast? hlast)) (by decide)
  rw [bareInteger?, if_neg hlast, if_pos h]

theorem ne_empty_of_isNumber {s : String} (h : Text.isNumber s.toList = true) : s ≠ "" := by
  rintro rfl
  exact absurd h (by decide)

theorem accepts_numeral (count : Nat) {t : Token} (hk : t.kind = .number) (ht : t.text ≠ "") :
    Accepts count .primary [t] (.numeral t.text none) :=
  fun _ hrest => .numeral hk (numeral_of_ne ht) hrest

theorem accepts_of_derives (count : Nat) {p : Phrase} {ts : List Token} {e : Expr}
    (h : Derives p ts e) : Accepts count p ts e := by
  induction h with
  | operand _ ih => exact ih.chain
  | @join additive t op ts us l r _ hop _ ihl ihr =>
    intro rest n rest' ws hfollow htail
    rw [List.append_assoc, List.cons_append]
    -- the tail of the left chain starts with the operation and reads its right operand
    have hop' : leading? additive (t :: (us ++ rest)) = some op := hop
    exact ihl _ _ _ _ (mayFollow_of_leading? hop') (.more hop' (ihr.reads_operand hfollow) htail)
  | numeral hk ht => exact accepts_numeral count hk ht.ne_empty
  | mixedToken hk hparts hw hn hd =>
    intro rest _
    refine .mixedToken hk ?_
    rw [mixedToken, hparts]
    exact mixedNumber_of_ne hw hn hd
  | @mixed w f o n c o' d c' hw hwt hf ho hn hnt hc ho' hd hdt hc' =>
    intro rest _
    have hnum := (accepts_numeral count hn (ne_empty_of_isNumber hnt)).sum
    have hden := (accepts_numeral count hd (ne_empty_of_isNumber hdt)).sum
    exact .mixed hw hf (hnum.reads_group ho hc) (hden.reads_group ho' hc')
      (bareInteger?_of_isNumber hnt) (bareInteger?_of_isNumber hdt)
      (mixedNumber_of_ne hwt.ne_empty (ne_empty_of_isNumber hnt) (ne_empty_of_isNumber hdt))
  | bracketed ho _ hc ih =>
    intro rest _
    rw [List.cons_append, List.cons_append, List.append_assoc, List.singleton_append]
    exact .bracketed ho (ih.reads_sum (by rw [hc]; decide) (by rw [hc]; decide)) (.found hc)
  | signed hk hminus _ ih =>
    intro rest hrest
    exact .signed hk hminus (ih rest hrest)
  | fraction hf ho _ hc ho' _ hc' ihn ihd =>
    intro rest _
    simp only [List.cons_append, List.append_assoc, List.nil_append]
    exact .fraction hf (ihn.reads_group ho hc) (ihd.reads_group ho' hc')

/-- The reader returns the tree of a derivation and remarks nothing. -/
theorem ofTokens_of_derives {ts : List Token} {e : Expr} (h : Derives (.chain true) ts e) :
    Parsed.ofTokens ts = ⟨some e, []⟩ := by
  have hreads : Reads ts.length (.chain true) (ts ++ []) (some e) [] [] :=
    (accepts_of_derives ts.length h).reads_chain ⟨by simp [NoFraction], fun _ => rfl⟩ rfl
  rw [List.append_nil, reads_iff] at hreads
  obtain ⟨s, hs, hnode, hrest, hws⟩ := hreads
  rw [Phrase.read] at hs
  rw [Parsed.ofTokens, hs]
  show Parsed.ofStep ts.length s = ⟨some e, []⟩
  rw [Parsed.ofStep, hnode, hrest, hws]
  rfl

end Parser
end FormulaMap

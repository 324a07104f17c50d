/-
A pair is known by either of its sides.

Each list of pairs is a zip of descriptors, whose paths are all different, with
leaves, so a path determines its leaf (`eq_of_mem_numeralPairs` and its kin).  In the
other direction the kind of a joined leaf tells which list its pair is in
(`FromPair.numeral_of` and its kin).

Operators are paired bucket by bucket.  A descriptor and a leaf of one bucket show the
same operator, with one exception: the bucket of the signs has a name that is not an
operator's symbol, but can be the text of a leaf that is no sign.
-/
import FormulaMap.Proofs.Surface.Pairing
import FormulaMap.Proofs.Surface.Refining
import FormulaMap.Proofs.Text.Words

namespace FormulaMap

variable {α : Type}

namespace Join

/-! ## A path determines its leaf -/

theorem map_fst_zip_sublist {β γ : Type} (xs : List β) (ys : List γ) :
    ((xs.zip ys).map Prod.fst).Sublist xs := by
  induction xs generalizing ys with
  | nil => exact List.Sublist.refl []
  | cons x xs ih =>
    cases ys with
    | nil => exact List.nil_sublist _
    | cons y ys => exact (ih ys).cons_cons x

/-- When every key is there once, a key belongs to one pair. -/
theorem eq_of_mem_zip {β γ κ : Type} {key : β → κ} {xs : List β} {ys : List γ}
    (hkeys : (xs.map key).Nodup) {p q : β × γ} (hp : p ∈ xs.zip ys) (hq : q ∈ xs.zip ys)
    (hkey : key p.1 = key q.1) : p = q := by
  have hpairs : ((xs.zip ys).map fun p => key p.1).Nodup := by
    have hsub := (map_fst_zip_sublist xs ys).map key
    rw [List.map_map] at hsub
    exact hsub.nodup hkeys
  exact List.inj_on_of_nodup_map hpairs hp hq hkey

section
variable {e : Expr} {leaves : List (Node α)} {n n' : Node α}

theorem eq_of_mem_numeralPairs (he : e.Addressed) {d d' : NumeralDescriptor}
    (h : (d, n) ∈ numeralPairs leaves e) (h' : (d', n') ∈ numeralPairs leaves e)
    (hpath : d.path = d'.path) : n = n' :=
  congrArg Prod.snd (eq_of_mem_zip he.nodup_numerals h h' hpath)

theorem eq_of_mem_mixedPairs (he : e.Addressed) {d d' : MixedDescriptor}
    (h : (d, n) ∈ mixedPairs leaves e) (h' : (d', n') ∈ mixedPairs leaves e)
    (hpath : d.path = d'.path) : n = n' :=
  congrArg Prod.snd (eq_of_mem_zip he.nodup_mixedNumbers h h' hpath)

/-- Operators with the same path are the same, so their pairs are in the same bucket. -/
theorem eq_of_mem_operatorPairs (he : e.Addressed) {d d' : OperatorDescriptor} {rank rank' : Nat}
    (h : ((d, rank), n) ∈ operatorPairs leaves e.operators)
    (h' : ((d', rank'), n') ∈ operatorPairs leaves e.operators) (hpath : d.path = d'.path) :
    n = n' := by
  obtain ⟨b, -, hb⟩ := List.mem_flatMap.1 h
  obtain ⟨b', -, hb'⟩ := List.mem_flatMap.1 h'
  obtain ⟨hd, hbucket, -⟩ := mem_bucketPairs hb
  obtain ⟨hd', hbucket', -⟩ := mem_bucketPairs hb'
  have hsame : d = d' := List.inj_on_of_nodup_map he.nodup_operators hd hd' hpath
  subst hsame
  have hbb : b = b' := hbucket.symm.trans hbucket'
  subst hbb
  unfold bucketPairs at hb hb'
  generalize hbucketed : e.operators.filter (bucketOfDescriptor · = b) = ds at hb hb'
  have hdistinct : (ds.map (·.path)).Nodup := by
    rw [← hbucketed]
    exact (List.filter_sublist.map _).nodup he.nodup_operators
  have hkeys : ((ranked ds).map fun p => p.1.path).Nodup := by
    rw [← map_fst_ranked ds, List.map_map] at hdistinct
    exact hdistinct
  exact congrArg Prod.snd (eq_of_mem_zip hkeys hb hb' rfl)

end

/-! ## What is in a bucket -/

theorem normalize_symbol (o : BinaryOperation) : normalizeOperator o.symbol = o.symbol := by
  cases o <;> decide

theorem symbol_ne_signBucket (o : BinaryOperation) : o.symbol ≠ signBucket := by
  cases o <;> decide

/-- An operation is in the bucket of its symbol, and a negation in that of the signs. -/
theorem bucketOfDescriptor_of_operator? {d : OperatorDescriptor} {x : Expr}
    (h : x.operator? = some (d.symbol, d.arity)) :
    (∃ o : BinaryOperation, d.symbol = o.symbol ∧ d.arity = 2 ∧ bucketOfDescriptor d = o.symbol) ∨
      (d.symbol = "-" ∧ d.arity = 1 ∧ bucketOfDescriptor d = signBucket) := by
  cases x with
  | binary o l r p =>
    rw [Expr.operator?, Option.some.injEq, Prod.mk.injEq] at h
    refine Or.inl ⟨o, h.1.symm, h.2.symm, ?_⟩
    rw [bucketOfDescriptor, ← h.1, ← h.2, normalize_symbol]
    simp
  | negation a p =>
    rw [Expr.operator?, Option.some.injEq, Prod.mk.injEq] at h
    refine Or.inr ⟨h.1.symm, h.2.symm, ?_⟩
    have hminus : normalizeOperator "-" = "-" := normalize_symbol .subtract
    rw [bucketOfDescriptor, ← h.1, ← h.2, hminus]
    rfl
  | numeral t p => cases h
  | fraction a b p => cases h
  | mixed w a b p => cases h

theorem normalize_of_sign {n : Node α} (h : n.SignShown) (hkind : n.kind = .minusUnary) :
    normalizeOperator n.text = "-" :=
  normalizeOperator_of_isMinusGlyph (h hkind)

end Join

open Join

/-- The operator at a node of the expression is the one that a leaf shows. -/
def Expr.ShownBy (x : Expr) (n : Node α) : Prop :=
  ∃ arity, x.operator? = some (normalizeOperator n.text, arity) ∧
    (arity = 1 ↔ n.kind = .minusUnary)

namespace Join

/-- A leaf shows the operator that it shares a bucket with, unless it is a leaf whose text
is the name of the bucket of the signs. -/
theorem shownBy_iff {d : OperatorDescriptor} {x : Expr} {n : Node α}
    (hx : x.operator? = some (d.symbol, d.arity)) (hn : n.SignShown)
    (hbucket : bucketOfNode n = bucketOfDescriptor d) :
    x.ShownBy n ↔ normalizeOperator n.text ≠ signBucket := by
  unfold bucketOfNode at hbucket
  rcases bucketOfDescriptor_of_operator? hx with ⟨o, hsymbol, harity, hd⟩ | ⟨hsymbol, harity, hd⟩
  · rw [hd] at hbucket
    have hkind : n.kind ≠ .minusUnary := by
      intro hkind
      rw [if_pos hkind] at hbucket
      exact symbol_ne_signBucket o hbucket.symm
    rw [if_neg hkind] at hbucket
    rw [hbucket]
    refine iff_of_true ⟨2, ?_, by simp [hkind]⟩ (symbol_ne_signBucket o)
    rw [hx, hsymbol, harity, hbucket]
  · rw [hd] at hbucket
    by_cases hkind : n.kind = .minusUnary
    · have htext := normalize_of_sign hn hkind
      rw [htext]
      refine iff_of_true ⟨1, ?_, by simp [hkind]⟩ (by decide)
      rw [hx, hsymbol, harity, htext]
    · rw [if_neg hkind] at hbucket
      rw [hbucket]
      refine iff_of_false ?_ (fun h => h rfl)
      rintro ⟨arity, hshown, -⟩
      rw [hx, hsymbol, hbucket, Option.some.injEq, Prod.mk.injEq] at hshown
      exact absurd hshown.1 (by decide)

end Join

/-! ## The kind of a leaf determines its pair -/

namespace Kind

theorem not_isOperator_of_isNumeric {k : Kind} (h : k.isNumeric = true) : k.isOperator = false := by
  cases k <;> first | rfl | exact absurd h (by decide)

end Kind

namespace SurfaceMap.FromPair

variable {leaves : List (Node α)} {e : Expr} {n n' : Node α}

theorem numeral_of (h : FromPair leaves e n n') (hn : isNumeralLeaf n = true) :
    ∃ d, (d, n) ∈ numeralPairs leaves e ∧ n'.path = some d.path ∧ n'.value = some d.text := by
  rw [isNumeralLeaf, Bool.and_eq_true, Bool.not_eq_true'] at hn
  cases h with
  | numeral d hpair hpath hvalue => exact ⟨d, hpair, hpath, hvalue⟩
  | operator d rank hpair hpath =>
    have hkind := (mem_operatorPairs hpair).2.2.1
    rw [Kind.not_isOperator_of_isNumeric hn.1] at hkind
    exact absurd hkind Bool.false_ne_true
  | mixed d hpair hpath =>
    rw [(mem_mixedPairs hpair).2.2] at hn
    exact absurd hn.1 (by decide)
  | part hpart =>
    rw [hn.2] at hpart
    exact absurd hpart Bool.false_ne_true

theorem operator_of (h : FromPair leaves e n n') (hc : n.Coherent) (hn : n.kind.isOperator = true) :
    ∃ d rank, ((d, rank), n) ∈ operatorPairs leaves e.operators ∧ n'.path = some d.path := by
  have hnumeric : n.kind.isNumeric ≠ true := by
    intro h
    rw [Kind.not_isOperator_of_isNumeric h] at hn
    exact absurd hn Bool.false_ne_true
  cases h with
  | numeral d hpair hpath hvalue =>
    have hleaf := (mem_numeralPairs hpair).2.2
    rw [isNumeralLeaf, Bool.and_eq_true] at hleaf
    exact absurd hleaf.1 hnumeric
  | operator d rank hpair hpath => exact ⟨d, rank, hpair, hpath⟩
  | mixed d hpair hpath =>
    rw [(mem_mixedPairs hpair).2.2] at hn
    exact absurd hn (by decide)
  | part hpart =>
    rcases hc.part hpart with h | h
    · exact absurd h hnumeric
    · rw [h] at hn
      exact absurd hn (by decide)

theorem mixed_of (h : FromPair leaves e n n') (hc : n.Coherent) (hn : n.kind = .mixedNumber) :
    ∃ d, (d, n) ∈ mixedPairs leaves e ∧ n'.path = some d.path := by
  cases h with
  | numeral d hpair hpath hvalue =>
    have hleaf := (mem_numeralPairs hpair).2.2
    rw [isNumeralLeaf, hn] at hleaf
    exact absurd hleaf (by simp [Kind.isNumeric])
  | operator d rank hpair hpath =>
    have hkind := (mem_operatorPairs hpair).2.2.1
    rw [hn] at hkind
    exact absurd hkind (by decide)
  | mixed d hpair hpath => exact ⟨d, hpair, hpath⟩
  | part hpart =>
    rcases hc.part hpart with h | h
    · rw [hn] at h
      exact absurd h (by decide)
    · rw [hn] at h
      exact absurd h (by decide)

end SurfaceMap.FromPair
end FormulaMap

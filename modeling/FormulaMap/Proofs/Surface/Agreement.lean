/-
Which leaves are joined to the nodes that their tokens became.

The leaves of a row and the tokens of the formula stand in the same order, so for every
leaf there is a token and a use of it (`Aligned`).  A numeral or an operator of the
expression is there because of a token, and pairing by position is right in a bucket
exactly when no token without a node stands before one with a node (`agree_iff`).  Only a
sign can be without a node, when it was made part of a numeral.  So numerals and
operations are always joined to their own nodes (`Aligned.agrees`), and signs are unless
one that is part of a numeral comes before one that is not (`Aligned.signs_agree_iff`).
-/
import FormulaMap.Proofs.Surface.Delivery
import FormulaMap.Proofs.Surface.Signs

namespace FormulaMap

/-! ## Pairing by position -/

section
variable {β γ δ κ : Type} {key : β → κ}

/-- What is given to the items of a list by position, the items being distinct: the key of
the partner that an item has in the other list. -/
def Dealt (key : β → κ) (given : δ → Option κ) (xs : List β) (ys : List δ) : Prop :=
  ∀ y ∈ ys, ∀ k, given y = some k ↔ ∃ x, (x, y) ∈ xs.zip ys ∧ key x = k

variable {given : δ → Option κ} {x : β} {xs : List β} {y : δ} {ys : List δ}

theorem Dealt.head (h : Dealt key given (x :: xs) (y :: ys)) : given y = some (key x) :=
  (h y List.mem_cons_self _).2 ⟨x, List.mem_cons_self, rfl⟩

theorem Dealt.tail (h : Dealt key given (x :: xs) (y :: ys)) (hfresh : y ∉ ys) :
    Dealt key given xs ys := by
  intro z hz k
  rw [h z (List.mem_cons_of_mem y hz) k, List.zip_cons_cons]
  refine exists_congr fun x' => and_congr_left fun _ => ?_
  refine ⟨fun hmem => (List.mem_cons.1 hmem).resolve_left fun heq => hfresh ?_,
    List.mem_cons_of_mem _⟩
  obtain ⟨-, rfl⟩ := Prod.mk.inj heq
  exact hz

theorem Dealt.nothing (h : Dealt key given [] ys) (hy : y ∈ ys) : given y = none := by
  refine Option.eq_none_iff_forall_ne_some.2 fun k hk => ?_
  obtain ⟨x, hx, -⟩ := (h y hy k).1 hk
  exact List.not_mem_nil hx

/-- Items that are dealt the keys that some of them own get their own keys exactly when
nothing that owns no key comes before something that does. -/
theorem agree_iff (owner : γ → Option κ) (given : δ → Option κ) {vs : List (γ × δ)}
    (hdistinct : (vs.map Prod.snd).Nodup) {xs : List β}
    (hxs : xs.map key = vs.filterMap fun v => owner v.1)
    (hdealt : Dealt key given xs (vs.map Prod.snd)) :
    (∀ v ∈ vs, given v.2 = owner v.1) ↔
      vs.Pairwise fun a b => owner a.1 = none → owner b.1 = none := by
  induction vs generalizing xs with
  | nil => exact iff_of_true (fun v hv => absurd hv List.not_mem_nil) .nil
  | cons v vs ih =>
    obtain ⟨hfresh, hdistinct'⟩ := List.nodup_cons.1 hdistinct
    rw [List.forall_mem_cons, List.pairwise_cons]
    cases howner : owner v.1 with
    | some k =>
      rw [List.filterMap_cons, howner] at hxs
      obtain ⟨x, xs, rfl, rfl, hxs'⟩ := List.map_eq_cons_iff.1 hxs
      rw [ih hdistinct' hxs' (hdealt.tail hfresh)]
      exact ⟨fun h => ⟨fun w _ hnone => absurd hnone (Option.some_ne_none _), h.2⟩,
        fun h => ⟨hdealt.head, h.2⟩⟩
    | none =>
      rw [List.filterMap_cons, howner] at hxs
      cases xs with
      | nil =>
        -- nothing is left to be dealt, and nobody owns anything
        have hnone : ∀ w ∈ vs, owner w.1 = none := List.filterMap_eq_nil_iff.1 hxs.symm
        refine iff_of_true ⟨hdealt.nothing List.mem_cons_self, fun w hw => ?_⟩
          ⟨fun w hw _ => hnone w hw, List.pairwise_of_forall_mem_list fun a _ b hb _ => hnone b hb⟩
        rw [hdealt.nothing (List.mem_map_of_mem (List.mem_cons_of_mem v hw)), hnone w hw]
      | cons x xs =>
        -- the first item gets what belongs to a later one
        refine iff_of_false
          (fun h => absurd (hdealt.head.symm.trans h.1) (Option.some_ne_none _)) fun h => ?_
        have hnil : vs.filterMap (fun w => owner w.1) = [] :=
          List.filterMap_eq_nil_iff.2 fun w hw => h.1 w hw rfl
        rw [hnil] at hxs
        cases hxs

end

/-! ## What a leaf shows -/

open Join SurfaceMap SyntaxTree

namespace Expr

/-- The bucket of an operator that an expression lists. -/
def bucketOfEntry (x : String × String × Nat) : String :=
  bucketOfDescriptor ⟨x.1, x.2.1, 0, x.2.2⟩

theorem bucketOfEntry_eq (d : OperatorDescriptor) :
    bucketOfEntry (d.path, d.symbol, d.arity) = bucketOfDescriptor d := by
  rw [bucketOfEntry, bucketOfDescriptor, bucketOfDescriptor]

/-- The paths in a bucket, in the order in which they are dealt. -/
theorem map_path_ranked (e : Expr) (b : String) :
    (ranked (e.operators.filter (bucketOfDescriptor · = b))).map (·.1.path) =
      (e.operatorEntries.filter (bucketOfEntry · = b)).map Prod.fst := by
  have hentries : e.operators.filter (bucketOfDescriptor · = b) =
      e.operators.filter ((bucketOfEntry · = b) ∘ fun d => (d.path, d.symbol, d.arity)) :=
    List.filter_congr fun d _ => by rw [Function.comp_apply, bucketOfEntry_eq]
  have hranked := congrArg (List.map (·.path))
    (map_fst_ranked (e.operators.filter (bucketOfDescriptor · = b)))
  rw [List.map_map] at hranked
  refine hranked.trans ?_
  rw [hentries, ← map_entry_operators, List.filter_map, List.map_map]
  rfl

end Expr

/-- A leaf can only be in a pair of its own bucket. -/
theorem Join.mem_operatorPairs_iff {leaves : List (Node Rat)} {ds : List OperatorDescriptor}
    {x : OperatorDescriptor × Nat} {n : Node Rat} :
    (x, n) ∈ operatorPairs leaves ds ↔ (x, n) ∈ bucketPairs leaves ds (bucketOfNode n) := by
  constructor
  · intro h
    obtain ⟨b, -, hb⟩ := List.mem_flatMap.1 h
    rw [(mem_bucketPairs hb).2.2.2.2]
    exact hb
  · intro h
    obtain ⟨hd, hbucket, -⟩ := mem_bucketPairs h
    refine List.mem_flatMap.2 ⟨_, List.mem_eraseDups.2 ?_, h⟩
    rw [← hbucket]
    exact List.mem_map_of_mem hd

/-- The node shows the token, whose use is told by a node of the expression. -/
structure Represents (e : Expr) (u : Token × Use) (n : Node Rat) : Prop where
  glyph : u.1.isGlyph = true
  names : Names e u
  face : n.face = u.1.face (surfaceKind u)

namespace Represents

variable {e : Expr} {u : Token × Use} {n : Node Rat} {t : Token}

theorem kind (h : Represents e u n) : n.kind = surfaceKind u := congrArg Node.Face.kind h.face

theorem text (h : Represents e u n) : n.text = u.1.text := congrArg Node.Face.text h.face

theorem not_minus_of_ne {e : Expr} (h : Represents e u n) (hk : u.1.kind ≠ .operator) :
    isMinusGlyph u.1.text = false :=
  Bool.eq_false_iff.2 fun hminus => hk (Token.kind_of_isMinusGlyph h.glyph hminus)

theorem surfaceKind_of_ne (h : Represents e u n) (hk : u.1.kind ≠ .operator) :
    n.kind = u.1.refinedKind := by
  rw [h.kind, surfaceKind, h.not_minus_of_ne hk, if_neg Bool.false_ne_true]

theorem kind_numeral {p : String} (h : Represents e (t, .numeral p) n) :
    n.kind.isNumeric = true := by
  have hk : t.kind = .number := h.names.1
  rw [h.surfaceKind_of_ne (by rw [hk]; exact TokenKind.noConfusion)]
  exact Token.refinedKind_of_number hk

theorem kind_bracket (h : Represents e (t, .bracket) n) :
    n.kind = .parenOpen ∨ n.kind = .parenClose := by
  have hk : t.kind = .openParen ∨ t.kind = .closeParen := h.names
  have hkind : ∀ k, t.kind = k → k ≠ .number → k ≠ .operator → n.kind = t.category.kind := by
    rintro k rfl hnumber hoperator
    rw [h.surfaceKind_of_ne hoperator]
    exact Token.refinedKind_of_ne_number h.glyph hnumber
  rcases hk with hk | hk
  · rw [hkind _ hk TokenKind.noConfusion TokenKind.noConfusion, Token.category, hk]
    exact Or.inl rfl
  · rw [hkind _ hk TokenKind.noConfusion TokenKind.noConfusion, Token.category, hk]
    exact Or.inr rfl

theorem kind_operation {p : String} (h : Represents e (t, .operation p) n) :
    n.kind = if isMinusGlyph t.text then .minusBinary else .binaryOp := by
  obtain ⟨o, l, r, ho, -⟩ := h.names
  have hk : t.kind = .operator := by
    rw [Token.operation?, Option.ite_none_right_eq_some] at ho
    exact ho.1
  have hnumber : t.kind ≠ .number := by
    rw [hk]
    exact TokenKind.noConfusion
  rw [h.kind, surfaceKind, Token.refinedKind_of_ne_number h.glyph hnumber, Token.category, hk]
  rfl

/-- A sign is shown as one, whether or not it is part of a numeral. -/
theorem kind_sign (h : Represents e u n) (hu : u.2.isSign = true) : n.kind = .minusUnary := by
  have hminus : (u.1.kind = .operator ∧ isMinusGlyph u.1.text = true) ∧
      followsOperand u = decide (u.1.kind = .closeParen) := by
    match u, h, hu with
    | (t, .sign p), h, _ => exact ⟨h.names.1, rfl⟩
    | (t, .folded), h, _ => exact ⟨h.names, rfl⟩
  rw [h.kind, surfaceKind, if_pos hminus.1.2, hminus.2, hminus.1.1]
  rfl

/-- Numerals are shown by the leaves that are paired with numerals. -/
theorem isNumeralLeaf_eq (h : Represents e u n) : isNumeralLeaf n = (numeral? u).isSome := by
  have hmarks : n.marks = .none := congrArg Node.Face.marks h.face
  have hpart : n.isMixedPart = false := Node.not_isMixedPart_of_partOf (by rw [hmarks]; rfl)
  rw [isNumeralLeaf, hpart, Bool.not_false, Bool.and_true]
  obtain ⟨t, use⟩ := u
  cases use with
  | numeral p => exact h.kind_numeral
  | operation p =>
    rw [h.kind_operation]
    split <;> rfl
  | sign p => rw [h.kind_sign rfl]; rfl
  | folded => rw [h.kind_sign rfl]; rfl
  | bracket => rcases h.kind_bracket with hk | hk <;> rw [hk] <;> rfl

/-- What is shown as an operator is an operation or a sign. -/
theorem use_of_isOperator (h : Represents e u n) (hn : n.kind.isOperator = true) :
    u.2.isOperation = true ∨ u.2.isSign = true := by
  match u, h with
  | (t, .numeral p), h =>
    rw [Kind.not_isOperator_of_isNumeric h.kind_numeral] at hn
    exact absurd hn Bool.false_ne_true
  | (t, .operation p), _ => exact Or.inl rfl
  | (t, .sign p), _ => exact Or.inr rfl
  | (t, .folded), _ => exact Or.inr rfl
  | (t, .bracket), h =>
    rcases h.kind_bracket with hk | hk <;> rw [hk] at hn <;> exact absurd hn Bool.false_ne_true

theorem kind_of_isOperation (h : Represents e u n) (hu : u.2.isOperation = true) :
    n.kind = if isMinusGlyph u.1.text then .minusBinary else .binaryOp := by
  match u, h, hu with
  | (t, .operation p), h, _ => exact h.kind_operation

theorem minusUnary_iff (h : Represents e u n) : n.kind = .minusUnary ↔ u.2.isSign = true := by
  refine ⟨fun hn => (h.use_of_isOperator (by rw [hn]; rfl)).resolve_left fun hu => ?_, h.kind_sign⟩
  rw [h.kind_of_isOperation hu] at hn
  split at hn <;> exact absurd hn Kind.noConfusion

theorem minusBinary_iff (h : Represents e u n) (hminus : isMinusGlyph u.1.text = true) :
    n.kind = .minusBinary ↔ u.2.isOperation = true := by
  constructor
  · intro hn
    refine (h.use_of_isOperator (by rw [hn]; rfl)).resolve_right fun hsign => ?_
    exact absurd (hn.symm.trans (h.kind_sign hsign)) Kind.noConfusion
  · exact fun hu => (h.kind_of_isOperation hu).trans (if_pos hminus)

/-! ## Buckets -/

theorem bucket_operation (h : Represents e u n) (hu : u.2.isOperation = true) :
    ∃ o : BinaryOperation, normalizeOperator u.1.text = o.symbol ∧ bucketOfNode n = o.symbol := by
  have hne : n.kind ≠ .minusUnary := by
    rw [h.kind_of_isOperation hu]
    split <;> exact Kind.noConfusion
  rw [bucketOfNode, if_neg hne, h.text]
  obtain ⟨t, use⟩ := u
  cases use with
  | operation p =>
    obtain ⟨o, l, r, ho, -⟩ := h.names
    exact ⟨o, operation?_eq_some ho, operation?_eq_some ho⟩
  | numeral p => exact absurd hu Bool.false_ne_true
  | sign p => exact absurd hu Bool.false_ne_true
  | folded => exact absurd hu Bool.false_ne_true
  | bracket => exact absurd hu Bool.false_ne_true

theorem bucket_sign (h : Represents e u n) (hu : u.2.isSign = true) :
    bucketOfNode n = signBucket := by
  rw [bucketOfNode, h.kind_sign hu, if_pos rfl]

theorem isOperator_of_use (h : Represents e u n)
    (hu : u.2.isOperation = true ∨ u.2.isSign = true) : n.kind.isOperator = true := by
  rcases hu with hu | hu
  · rw [h.kind_of_isOperation hu]
    split <;> rfl
  · rw [h.kind_sign hu]
    rfl

/-- An operator that the expression lists is in the bucket of its leaf. -/
theorem bucket_of_operator? (h : Represents e u n) {x : String × String × Nat}
    (hx : operator? u = some x) :
    n.kind.isOperator = true ∧ bucketOfNode n = Expr.bucketOfEntry x := by
  match u, h, hx with
  | (t, .operation p), h, rfl =>
    obtain ⟨o, htext, hbucket⟩ := h.bucket_operation rfl
    refine ⟨h.isOperator_of_use (Or.inl rfl), ?_⟩
    rw [hbucket, Expr.bucketOfEntry, htext, bucketOfDescriptor, normalize_symbol]
    simp
  | (t, .sign p), h, rfl =>
    have hminus : normalizeOperator "-" = "-" := normalize_symbol .subtract
    refine ⟨h.isOperator_of_use (Or.inr rfl), (h.bucket_sign rfl).trans ?_⟩
    rw [Expr.bucketOfEntry, bucketOfDescriptor, hminus]
    rfl

/-- The operators in the bucket of the signs are the signs. -/
theorem inSignBucket_iff (h : Represents e u n) :
    n.kind.isOperator = true ∧ bucketOfNode n = signBucket ↔ u.2.isSign = true := by
  constructor
  · rintro ⟨hkind, hbucket⟩
    refine (h.use_of_isOperator hkind).resolve_left fun hu => ?_
    obtain ⟨o, -, hsymbol⟩ := h.bucket_operation hu
    exact symbol_ne_signBucket o (hsymbol.symm.trans hbucket)
  · exact fun hu => ⟨h.isOperator_of_use (Or.inr hu), h.bucket_sign hu⟩

end Represents

/-! ## What a joined leaf carries -/

/-- The leaves of a map, in reading order, side by side with the uses of the tokens that
they show. -/
structure Aligned (e : Expr) (t : Tolerances Rat) (m : SurfaceMap Rat)
    (zs : List ((Token × Use) × Node Rat)) : Prop where
  ready : m.Ready
  inOrder : m.leaves t = m.root.leaves
  leaves : m.root.leaves = zs.map Prod.snd
  represents : ∀ z ∈ zs, Represents e z.1 z.2
  numerals : e.numeralEntries.map Prod.fst = zs.filterMap fun z => numeral? z.1
  operators : e.operatorEntries = zs.filterMap fun z => operator? z.1

/-- A leaf shows its token, a minus is a sign or an operation as it was read, and numerals
and operations carry the path of the node that the token has become. -/
structure Agrees (u : Token × Use) (n : Node Rat) : Prop where
  text : n.text = u.1.text
  binary : isMinusGlyph u.1.text = true → (n.kind = .minusBinary ↔ u.2.isOperation = true)
  unary : isMinusGlyph u.1.text = true → (n.kind = .minusUnary ↔ u.2.isSign = true)
  numeral : ∀ p, u.2 = .numeral p → n.path = some p
  operation : ∀ p, u.2 = .operation p → n.path = some p

/-- A sign carries the path of the negation that it has become, and none if it was made
part of a numeral. -/
structure SignAgrees (u : Token × Use) (n : Node Rat) : Prop where
  sign : ∀ p, u.2 = .sign p → n.path = some p
  folded : u.2 = .folded → n.path = none

theorem signAgrees_iff {u : Token × Use} (hu : u.2.isSign = true) {n : Node Rat} :
    SignAgrees u n ↔ n.path = (operator? u).map Prod.fst := by
  match u, hu with
  | (t, .sign p), _ =>
    exact ⟨fun h => h.sign p rfl, fun h => ⟨fun q hq => Use.sign.inj hq ▸ h, Use.noConfusion⟩⟩
  | (t, .folded), _ =>
    exact ⟨fun h => h.folded rfl, fun h => ⟨fun q hq => Use.noConfusion hq, fun _ => h⟩⟩

namespace Aligned

variable {e : Expr} {t : Tolerances Rat} {m : SurfaceMap Rat}
  {zs : List ((Token × Use) × Node Rat)} {f : Node Rat → Node Rat}

theorem nodup_leaves (h : Aligned e t m zs) : (zs.map Prod.snd).Nodup := by
  rw [← h.leaves, ← h.inOrder]
  exact SurfaceMap.nodup_leaves h.ready.placed t

/-- The operators in a bucket. -/
def inBucket (b : String) (zs : List ((Token × Use) × Node Rat)) :
    List ((Token × Use) × Node Rat) :=
  (zs.filter (·.2.kind.isOperator)).filter fun z => bucketOfNode z.2 = b

theorem mem_inBucket {b : String} {z : (Token × Use) × Node Rat} :
    z ∈ inBucket b zs ↔ z ∈ zs ∧ z.2.kind.isOperator = true ∧ bucketOfNode z.2 = b := by
  rw [inBucket, List.mem_filter, List.mem_filter, decide_eq_true_eq, and_assoc]

theorem map_snd_inBucket (h : Aligned e t m zs) (b : String) :
    ((m.leaves t).filter (·.kind.isOperator)).filter (fun n => bucketOfNode n = b) =
      (inBucket b zs).map Prod.snd := by
  rw [h.inOrder, h.leaves, List.filter_map, List.filter_map]
  rfl

/-- The paths that are dealt in a bucket are those of the operators in it. -/
theorem paths_inBucket (h : Aligned e t m zs) (b : String) :
    (ranked (e.operators.filter (bucketOfDescriptor · = b))).map (·.1.path) =
      (inBucket b zs).filterMap fun v => (operator? v.1).map Prod.fst := by
  rw [Expr.map_path_ranked, h.operators, List.filter_filterMap, List.map_filterMap, inBucket,
    List.filterMap_filter, List.filterMap_filter]
  refine List.filterMap_congr fun z hz => ?_
  cases hentry : operator? z.1 with
  | none => simp
  | some x =>
    obtain ⟨hkind, hbucket⟩ := (h.represents z hz).bucket_of_operator? hentry
    rw [hkind, hbucket, if_pos rfl, Option.filter_some]
    split <;> rfl

/-- The bucket of the signs holds the signs. -/
theorem inBucket_sign (h : Aligned e t m zs) :
    inBucket signBucket zs = zs.filter fun z => z.1.2.isSign := by
  rw [inBucket, List.filter_filter]
  refine List.filter_congr fun z hz => ?_
  rw [Bool.eq_iff_iff, Bool.and_eq_true, decide_eq_true_eq, and_comm]
  exact (h.represents z hz).inSignBucket_iff

section
variable (h : Aligned e t m zs) (hf : (m.join t e).1 = m.mapNodes f)
  (hwritten : ∀ n ∈ m.nodes, Rewritten n (f n))

include h hf hwritten

/-- The joined leaf of a leaf, which `f` has written. -/
theorem joined {z : (Token × Use) × Node Rat} (hz : z ∈ zs) :
    z.2 ∈ m.root.leaves ∧ f z.2 ∈ (m.join t e).1.root.leaves ∧ Rewritten z.2 (f z.2) := by
  have hleaf : z.2 ∈ m.root.leaves := h.leaves ▸ List.mem_map_of_mem hz
  refine ⟨hleaf, ?_, hwritten _ ((Tree.leaves_sublist_preorder _).subset hleaf)⟩
  rw [hf, mapNodes, Tree.leaves_map]
  exact List.mem_map_of_mem hleaf

theorem numerals_agree :
    ∀ z ∈ zs, isNumeralLeaf z.2 = true → (f z.2).path = numeral? z.1 := by
  let vs := zs.filter fun z => isNumeralLeaf z.2
  have hsome : ∀ z ∈ zs, isNumeralLeaf z.2 = (numeral? z.1).isSome := fun z hz =>
    (h.represents z hz).isNumeralLeaf_eq
  have hleaves : (m.leaves t).filter isNumeralLeaf = vs.map Prod.snd := by
    rw [h.inOrder, h.leaves, List.filter_map]
    rfl
  have hpaths : e.numerals.map (·.path) = vs.filterMap fun v => numeral? v.1 := by
    rw [Expr.map_path_numerals, h.numerals, List.filterMap_filter]
    refine List.filterMap_congr fun z hz => ?_
    rw [hsome z hz]
    cases numeral? z.1 <;> rfl
  have hdealt : Dealt (·.path) (fun n => (f n).path) e.numerals (vs.map Prod.snd) := by
    refine List.forall_mem_map.2 fun v hv p => ?_
    obtain ⟨hz, hkind⟩ := List.mem_filter.1 hv
    obtain ⟨hleaf, hleaf', hwritten⟩ := h.joined hf hwritten hz
    rw [path_eq_some_iff_of_isNumeral h.ready hleaf hkind hleaf' hwritten.number, numeralPairs,
      hleaves]
  -- every numeral leaf has a numeral, so nothing can shift
  have hall : vs.Pairwise fun a b => numeral? a.1 = none → numeral? b.1 = none := by
    refine List.pairwise_of_forall_mem_list fun a ha _ _ hnone => ?_
    obtain ⟨hz, hkind⟩ := List.mem_filter.1 ha
    rw [hsome a hz, hnone] at hkind
    exact absurd hkind Bool.false_ne_true
  have hagree := (agree_iff numeral? (fun n => (f n).path)
    ((List.filter_sublist.map Prod.snd).nodup h.nodup_leaves) hpaths hdealt).2 hall
  exact fun z hz hkind => hagree z (List.mem_filter.2 ⟨hz, hkind⟩)

/-- In a bucket the leaves carry the paths of their own operators exactly when no leaf without
an operator stands before one with an operator. -/
theorem operators_agree_iff (b : String) :
    (∀ z ∈ inBucket b zs, (f z.2).path = (operator? z.1).map Prod.fst) ↔
      (inBucket b zs).Pairwise fun x y => operator? x.1 = none → operator? y.1 = none := by
  have hdistinct : ((inBucket b zs).map Prod.snd).Nodup :=
    ((List.filter_sublist.trans List.filter_sublist).map Prod.snd).nodup h.nodup_leaves
  have hdealt : Dealt (·.1.path) (fun n => (f n).path)
      (ranked (e.operators.filter (bucketOfDescriptor · = b))) ((inBucket b zs).map Prod.snd) := by
    refine List.forall_mem_map.2 fun v hv p => ?_
    obtain ⟨hz, hkind, hbucket⟩ := mem_inBucket.1 hv
    obtain ⟨hleaf, hleaf', hwritten⟩ := h.joined hf hwritten hz
    rw [path_eq_some_iff_of_isOperator h.ready hleaf hkind hleaf' hwritten.number, Prod.exists]
    simp only [mem_operatorPairs_iff, bucketPairs, hbucket, h.map_snd_inBucket b]
  have hagree := agree_iff (fun u => (operator? u).map Prod.fst) (fun n => (f n).path) hdistinct
    (h.paths_inBucket b) hdealt
  simpa only [Option.map_eq_none_iff] using hagree

/-- Outside the bucket of the signs every leaf has an operator. -/
theorem operations_agree {z : (Token × Use) × Node Rat} (hz : z ∈ zs) {p : String}
    (hp : z.1.2 = .operation p) : (f z.2).path = some p := by
  have hu : z.1.2.isOperation = true := by
    rw [hp]
    rfl
  obtain ⟨o, -, hbucket⟩ := (h.represents z hz).bucket_operation hu
  have hkind := (h.represents z hz).isOperator_of_use (Or.inl hu)
  have hall : (inBucket o.symbol zs).Pairwise
      fun x y => operator? x.1 = none → operator? y.1 = none := by
    refine List.pairwise_of_forall_mem_list fun x hx y _ hnone => ?_
    obtain ⟨hxz, hxkind, hxbucket⟩ := mem_inBucket.1 hx
    rcases (h.represents x hxz).use_of_isOperator hxkind with hoperation | hsign
    · have hsome := isSome_operator?_of_isOperation hoperation
      rw [hnone] at hsome
      exact absurd hsome Bool.false_ne_true
    · have hother := (h.represents x hxz).bucket_sign hsign
      exact absurd (hxbucket.symm.trans hother) (symbol_ne_signBucket o)
  rw [(h.operators_agree_iff hf hwritten o.symbol).2 hall z (mem_inBucket.2 ⟨hz, hkind, hbucket⟩),
    operator?_of_operation hp]
  rfl

theorem agrees {z : (Token × Use) × Node Rat} (hz : z ∈ zs) : Agrees z.1 (f z.2) := by
  have hrepresents := h.represents z hz
  have hz' := (h.joined hf hwritten hz).2.2
  refine ⟨hz'.text.trans hrepresents.text, ?_, ?_, ?_, ?_⟩
  · rw [hz'.kind]
    exact hrepresents.minusBinary_iff
  · rw [hz'.kind]
    exact fun _ => hrepresents.minusUnary_iff
  · intro p hp
    have hnumeral : numeral? z.1 = some p := numeral?_of_numeral hp
    rw [h.numerals_agree hf hwritten z hz (by rw [hrepresents.isNumeralLeaf_eq, hnumeral]; rfl),
      hnumeral]
  · exact fun p hp => h.operations_agree hf hwritten hz hp

/-- Signs agree exactly when none that is part of a numeral stands before a negation. -/
theorem signs_agree_iff :
    (∀ z ∈ zs, SignAgrees z.1 (f z.2)) ↔
      (zs.map Prod.fst).Pairwise fun a b => a.2 = .folded → ∀ p, b.2 ≠ .sign p := by
  have hmem : ∀ z, z ∈ inBucket signBucket zs ↔ z ∈ zs ∧ z.1.2.isSign = true := by
    intro z
    rw [h.inBucket_sign, List.mem_filter]
  have hleaves : (∀ z ∈ zs, SignAgrees z.1 (f z.2)) ↔
      ∀ z ∈ inBucket signBucket zs, (f z.2).path = (operator? z.1).map Prod.fst := by
    constructor
    · intro hall z hz
      obtain ⟨hz, hsign⟩ := (hmem z).1 hz
      exact (signAgrees_iff hsign).1 (hall z hz)
    · intro hall z hz
      have hagrees : z.1.2.isSign = true → SignAgrees z.1 (f z.2) := fun hsign =>
        (signAgrees_iff hsign).2 (hall z ((hmem z).2 ⟨hz, hsign⟩))
      exact ⟨fun p hp => (hagrees (by rw [hp]; rfl)).sign p hp,
        fun hfolded => (hagrees (by rw [hfolded]; rfl)).folded hfolded⟩
  rw [hleaves, h.operators_agree_iff hf hwritten, h.inBucket_sign, List.pairwise_filter,
    List.pairwise_map]
  exact List.Pairwise.iff_of_mem fun _ _ => folded_before_iff

end

end Aligned

end FormulaMap

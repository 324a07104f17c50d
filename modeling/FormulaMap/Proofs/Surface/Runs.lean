/-
Runs over atoms.

The passes that join mixed numbers and number operators keep what a node is drawn from, and
of its kind all that minus signs look at (`Rewrites`), so that the signs stay as they were
resolved (`resolveMinus_refined`).

The first run tells the atoms apart, joins the wholes and numbers the operators
(`exists_findings`).  Another one writes only what atoms are parts of: what is claimed by
decimals is marked as a part of the last of them (`Refined.refined_after`), and this is once
more what a run leaves (`Refined.rerun`).
-/
import FormulaMap.Proofs.Surface.Rerunning

namespace FormulaMap

variable {α : Type}

namespace Enhance

/-! ## What the last passes keep -/

/-- The kind is kept, or a numeral has become a mixed number. -/
def KeepsKind (a b : Node α) : Prop :=
  b.kind = a.kind ∨ a.kind.isNumeric = true ∧ b.kind = .mixedNumber

/-- Nodes are rewritten one by one, and keep their kinds and where they are drawn. -/
def Rewrites (ns ns' : List (Node α)) : Prop :=
  ∃ f : Node α → Node α, (∀ n, (f n).asDrawn = n.asDrawn) ∧ (∀ n ∈ ns, KeepsKind n (f n)) ∧
    ns' = ns.map f

theorem KeepsKind.trans {a b c : Node α} (hab : KeepsKind a b) (hbc : KeepsKind b c) :
    KeepsKind a c := by
  rcases hab with hab | ⟨hnumeric, hmixed⟩
  · rcases hbc with hbc | ⟨hnumeric, hmixed⟩
    · exact Or.inl (hbc.trans hab)
    · exact Or.inr ⟨hab ▸ hnumeric, hmixed⟩
  · rcases hbc with hbc | ⟨-, hmixed'⟩
    · exact Or.inr ⟨hnumeric, hbc.trans hmixed⟩
    · exact Or.inr ⟨hnumeric, hmixed'⟩

theorem KeepsKind.opensOperand {a b : Node α} (h : KeepsKind a b) :
    b.kind.opensOperand = a.kind.opensOperand := by
  rcases h with hkind | ⟨hnumeric, hmixed⟩
  · rw [hkind]
  · rw [hmixed]
    cases hkind : a.kind <;> rw [hkind] at hnumeric <;>
      first | rfl | exact absurd hnumeric Bool.false_ne_true

theorem Rewrites.refl (ns : List (Node α)) : Rewrites ns ns :=
  ⟨id, fun _ => rfl, fun _ _ => Or.inl rfl, (List.map_id ns).symm⟩

theorem Rewrites.trans {ns ns' ns'' : List (Node α)} (h : Rewrites ns ns')
    (h' : Rewrites ns' ns'') : Rewrites ns ns'' := by
  obtain ⟨f, hf, hkind, rfl⟩ := h
  obtain ⟨g, hg, hkind', rfl⟩ := h'
  refine ⟨g ∘ f, fun n => (hg (f n)).trans (hf n), fun n hn => ?_, List.map_map⟩
  exact (hkind n hn).trans (hkind' (f n) (List.mem_map_of_mem hn))

theorem Rewrites.map_asDrawn {ns ns' : List (Node α)} (h : Rewrites ns ns') :
    ns'.map Node.asDrawn = ns.map Node.asDrawn := by
  obtain ⟨f, hf, -, rfl⟩ := h
  rw [List.map_map]
  exact List.map_congr_left fun n _ => hf n

theorem Rewrites.map_number {ns ns' : List (Node α)} (h : Rewrites ns ns') :
    ns'.map (·.number) = ns.map (·.number) := by
  have hdrawn := congrArg (List.map Node.number) h.map_asDrawn
  rwa [List.map_map, List.map_map] at hdrawn

/-- Numbering operators writes slots. -/
theorem rewrites_numberOperators {ns : List (Node α)} (hdistinct : (ns.map (·.number)).Nodup) :
    Rewrites ns (numberOperators ns) := by
  obtain ⟨slot, hslot⟩ := exists_slots hdistinct [] 0
  exact ⟨fun n => withSlot (slot n.number) n, fun _ => rfl, fun _ _ => Or.inl rfl, hslot⟩

variable [Coordinate α]

theorem asDrawn_joinNode (whole bar n : Node α) : (joinNode whole bar n).asDrawn = n.asDrawn := by
  unfold joinNode
  split
  · rfl
  · split
    · rfl
    · split <;> rfl

theorem rewrites_joinWhole (gap : α) (bars : List (Node α)) {state : List (Node α)}
    (hdistinct : (state.map (·.number)).Nodup) (number : Nat) :
    Rewrites state (joinWhole gap bars state number) := by
  unfold joinWhole
  split
  · exact .refl state
  · next whole hfound =>
    split
    · next hnumeral =>
      split
      · exact .refl state
      · next bar _ =>
        rw [Bool.and_eq_true] at hnumeral
        refine ⟨joinNode whole bar, asDrawn_joinNode whole bar, fun n hn => ?_, rfl⟩
        unfold joinNode
        split
        · next hsame =>
          -- the only node that takes the new kind is the numeral itself
          have hmem := List.mem_of_find?_eq_some hfound
          obtain rfl := List.inj_on_of_nodup_map hdistinct hn hmem hsame
          exact Or.inr ⟨hnumeral.1, rfl⟩
        · split
          · exact Or.inl rfl
          · split <;> exact Or.inl rfl
    · exact .refl state

theorem rewrites_joinMixed (gap : α) {ns : List (Node α)}
    (hdistinct : (ns.map (·.number)).Nodup) : Rewrites ns (joinMixed gap ns) := by
  have hfold : ∀ (bars : List (Node α)) (numbers : List Nat) (state : List (Node α)),
      (state.map (·.number)).Nodup →
        Rewrites state (numbers.foldl (joinWhole gap bars) state) := by
    intro bars numbers
    induction numbers with
    | nil => exact fun state _ => .refl state
    | cons k ks ih =>
      intro state hstate
      have hstep := rewrites_joinWhole gap bars hstate k
      exact hstep.trans (ih _ (hstep.map_number ▸ hstate))
  exact hfold _ _ ns hdistinct

/-! ## Resolved minus signs -/

/-- A minus among resolved atoms is what the atoms before it make it. -/
theorem kind_of_resolved {ratio : α} {seen before after : List (Node α)} {a : Node α}
    (h : resolveAfter ratio seen (before ++ a :: after) = before ++ a :: after)
    (hminus : isMinusGlyph (String.ofList a.glyphs) = true) :
    a.kind = minusKind ratio (before.reverse ++ seen) a := by
  induction before generalizing seen with
  | nil =>
    rw [List.nil_append, resolveAfter, List.cons.injEq, resolveNode, if_pos hminus] at h
    exact (congrArg Node.kind h.1 :).symm
  | cons b before ih =>
    rw [List.cons_append, resolveAfter, List.cons.injEq] at h
    rw [List.reverse_cons, List.append_assoc]
    refine ih ?_
    rw [h.1] at h
    exact h.2

/-- Rewriting resolved atoms leaves them resolved. -/
theorem Rewrites.resolved {ratio : α} {ns ns' : List (Node α)} (h : Rewrites ns ns')
    (hns : resolveMinus ratio ns = ns) : resolveMinus ratio ns' = ns' := by
  obtain ⟨f, hf, hkind, rfl⟩ := h
  refine resolveAfter_map hf hns (fun n hn hminus => ?_) fun n hn => (hkind n hn).opensOperand
  refine (hkind n hn).resolve_right fun hnumeral => ?_
  obtain ⟨before, after, rfl⟩ := List.append_of_mem hn
  rw [kind_of_resolved hns hminus, isNumeric_minusKind] at hnumeral
  exact Bool.false_ne_true hnumeral.1

/-! ## The passes after the widening of bars -/

/-- The passes after the widening of bars. -/
def refined (t : Tolerances α) (ns : List (Node α)) : List (Node α) :=
  numberOperators (joinMixed t.mixedGap (resolveMinus t.minusOverlap (reclassify ns)))

theorem map_number_resolveMinus (ratio : α) (ns : List (Node α)) :
    (resolveMinus ratio (reclassify ns)).map (·.number) = ns.map (·.number) := by
  have hframes := (map_frame_resolveAfter ratio [] (reclassify ns)).trans
    (map_frame_map frame_reclassifyNode ns)
  have hnumbers := congrArg (List.map Frame.number) hframes
  rwa [List.map_map, List.map_map] at hnumbers

theorem rewrites_refined (t : Tolerances α) {ns : List (Node α)}
    (hdistinct : (ns.map (·.number)).Nodup) :
    Rewrites (resolveMinus t.minusOverlap (reclassify ns)) (refined t ns) := by
  have hresolved := map_number_resolveMinus t.minusOverlap ns
  have hjoined := rewrites_joinMixed t.mixedGap (hresolved ▸ hdistinct)
  exact hjoined.trans (rewrites_numberOperators (hjoined.map_number ▸ hresolved ▸ hdistinct))

/-- The minus signs of refined atoms are resolved. -/
theorem resolveMinus_refined (t : Tolerances α) {ns : List (Node α)}
    (hdistinct : (ns.map (·.number)).Nodup) :
    resolveMinus t.minusOverlap (refined t ns) = refined t ns :=
  (rewrites_refined t hdistinct).resolved (resolveAfter_resolveAfter _ [] (reclassify ns))

/-- A run writes kinds, slots and marks, and nothing else. -/
theorem map_asDrawn_refined (t : Tolerances α) {ns : List (Node α)}
    (hdistinct : (ns.map (·.number)).Nodup) :
    (refined t ns).map Node.asDrawn = ns.map Node.asDrawn := by
  have hkinds := (map_unrefined_resolveAfter t.minusOverlap [] _).trans
    (map_unrefined_reclassify ns)
  have hmapped := congrArg (List.map Node.asDrawn) hkinds
  rw [List.map_map, List.map_map] at hmapped
  exact (rewrites_refined t hdistinct).map_asDrawn.trans hmapped

/-! ## The first run -/

/-- What holds of atoms before the first run. -/
structure Unrefined (ns : List (Node α)) : Prop where
  distinct : (ns.map (·.number)).Nodup
  ids : ∀ n ∈ ns, n.id ≠ ""
  noMark : ∀ n ∈ ns, n.marks.bar = none ∧ n.marks.partOf = none
  noMixed : ∀ n ∈ ns, n.kind ≠ .mixedNumber

/-- Resolved atoms with what a run writes into them. -/
structure Refined (t : Tolerances α) (ns : List (Node α)) (r : Findings α) : Prop where
  resolved : Resolved t.minusOverlap ns
  findings : r.Of t.mixedGap ns
  numbered : numberOperators (ns.map r.after) = ns.map r.after

/-- What the first two passes make of an atom has another kind at most. -/
theorem exists_of_mem_resolveMinus {ratio : α} {ns : List (Node α)} {n : Node α}
    (hn : n ∈ resolveMinus ratio (reclassify ns)) :
    ∃ a ∈ ns, ∃ before, n = resolveNode ratio before (reclassifyNode a) ∧
      n = { a with kind := n.kind } := by
  obtain ⟨b, hb, before, hresolved⟩ := mem_resolveAfter hn
  obtain ⟨a, ha, rfl⟩ := List.mem_map.1 hb
  obtain ⟨k, hk⟩ := resolveNode_eq ratio before (reclassifyNode a)
  obtain ⟨l, hl⟩ := reclassifyNode_eq a
  refine ⟨a, ha, before, hresolved, ?_⟩
  rw [hresolved, hk, hl]

/-- The first two passes make no bars and no mixed numbers. -/
theorem kind_of_told {ratio : α} {before : List (Node α)} {a : Node α} {k : Kind}
    (hk : k = .fracBar ∨ k = .mixedNumber)
    (h : (resolveNode ratio before (reclassifyNode a)).kind = k) : a.kind = k := by
  have hother : k ≠ .minusUnary ∧ k ≠ .minusBinary ∧ k ≠ .decimal ∧ k ≠ .var := by
    rcases hk with rfl | rfl <;> decide
  obtain ⟨hunary, hbinary, hdecimal, hvar⟩ := hother
  exact kind_of_reclassifyNode hdecimal hvar (kind_of_resolveNode hunary hbinary h)

theorem reclassifyNode_resolveNode (ratio : α) (before : List (Node α)) (a : Node α) :
    reclassifyNode (resolveNode ratio before (reclassifyNode a)) =
      resolveNode ratio before (reclassifyNode a) := by
  by_cases hminus : isMinusGlyph (String.ofList (reclassifyNode a).glyphs) = true
  · refine reclassifyNode_of_minus ?_
    obtain ⟨k, hk⟩ := resolveNode_eq ratio before (reclassifyNode a)
    rw [hk]
    exact hminus
  · rw [resolveNode, if_neg hminus, reclassifyNode_reclassifyNode]

theorem Unrefined.resolved {ns : List (Node α)} (h : Unrefined ns) (ratio : α) :
    Resolved ratio (resolveMinus ratio (reclassify ns)) where
  distinct := by
    rw [map_number_resolveMinus]
    exact h.distinct
  ids n hn := by
    obtain ⟨a, ha, -, -, heq⟩ := exists_of_mem_resolveMinus hn
    rw [heq]
    exact h.ids a ha
  noMark n hn := by
    obtain ⟨a, ha, -, -, heq⟩ := exists_of_mem_resolveMinus hn
    rw [heq]
    exact h.noMark a ha
  noMixed n hn hkind := by
    obtain ⟨a, ha, before, heq, -⟩ := exists_of_mem_resolveMinus hn
    rw [heq] at hkind
    exact h.noMixed a ha (kind_of_told (Or.inr rfl) hkind)
  reclassified n hn := by
    obtain ⟨a, -, before, heq, -⟩ := exists_of_mem_resolveMinus hn
    rw [heq]
    exact reclassifyNode_resolveNode ratio before a
  resolved := resolveAfter_resolveAfter ratio [] (reclassify ns)

theorem exists_findings (t : Tolerances α) {ns : List (Node α)} (h : Unrefined ns) :
    ∃ r, Refined t (resolveMinus t.minusOverlap (reclassify ns)) r ∧
      refined t ns = (resolveMinus t.minusOverlap (reclassify ns)).map r.after ∧
      ∀ n, r.part n = (owner? r.joints n).or n.marks.partOf := by
  have hresolved := h.resolved t.minusOverlap
  rw [refined]
  generalize resolveMinus t.minusOverlap (reclassify ns) = rs at hresolved ⊢
  have hspec := joints_spec t.mixedGap hresolved.distinct
  have hjoined := joinMixed_eq t.mixedGap hresolved.distinct hresolved.ids
  have hdistinct : ((rs.map (settled (joints t.mixedGap rs))).map (·.number)).Nodup := by
    rw [List.map_map]
    exact hresolved.distinct
  obtain ⟨slot, hslot⟩ := exists_slots hdistinct [] 0
  rw [hjoined, numberOperators, hslot, List.map_map]
  refine ⟨⟨joints t.mixedGap rs, fun n => (owner? (joints t.mixedGap rs) n).or n.marks.partOf,
    slot⟩, ⟨hresolved, ⟨rfl, fun n hn hany => ?_⟩, ?_⟩, rfl, fun _ => rfl⟩
  · cases hclaim : lastClaim? (joints t.mixedGap rs) n with
    | none =>
      rw [lastClaim?_eq_none.1 hclaim] at hany
      exact absurd hany Bool.false_ne_true
    | some j =>
      refine ⟨j.whole.id, ?_, hresolved.ids _ (hspec.whole j (lastClaim?_spec hclaim).1).1⟩
      show (owner? (joints t.mixedGap rs) n).or _ = _
      rw [owner?, hclaim]
      rfl
  · have hagain := numberAfter_numberAfter [] 0 (rs.map (settled (joints t.mixedGap rs)))
    rw [hslot, List.map_map] at hagain
    exact hagain

/-! ## Further runs -/

variable {t : Tolerances α} {ns : List (Node α)} {r : Findings α}

/-- A further run writes only what atoms are parts of. -/
theorem Refined.refined_after (h : Refined t ns r) :
    refined t (ns.map r.after) =
      (ns.map r.after).map (remark (r.joints.filter Joint.isDecimal)) := by
  have hreopen : reclassify (ns.map r.after) = ns.map r.reopen := by
    rw [reclassify, List.map_map]
    exact List.map_congr_left fun n hn => h.findings.reclassifyNode_after h.resolved hn
  have hnumber := numberAfter_withPart
    (fun n => (owner? (r.joints.filter Joint.isDecimal) n).or n.marks.partOf)
    (fun _ _ => rfl) [] 0 (ns.map r.after)
  rw [refined, hreopen, h.findings.resolveMinus_reopen h.resolved,
    h.findings.joinMixed_reopen h.resolved]
  exact hnumber.trans (congrArg (List.map _) h.numbered)

theorem remark_remark (js : List (Joint α)) (n : Node α) :
    remark js (remark js n) = remark js n := by
  have howner : owner? js (remark js n) = owner? js n := rfl
  have hpart : (remark js n).marks.partOf = (owner? js n).or n.marks.partOf := rfl
  rw [remark, howner, hpart, ← Option.or_assoc, Option.or_self]
  rfl

/-- The findings of one more run. -/
def Findings.rerun (r : Findings α) : Findings α where
  joints := r.joints
  part n := (owner? (r.joints.filter Joint.isDecimal) n).or (r.part n)
  slot := r.slot

/-- What claims a node does not depend on what has been written to it, unless it is joined. -/
theorem Findings.lastClaim?_after_of_none {n : Node α} (hj : jointOf? r.joints n = none)
    {js : List (Joint α)} : lastClaim? js (r.after n) = lastClaim? js n := by
  have hclaims : ∀ j, claims j (r.after n) = claims j n := fun j => by
    rw [claims, claims, Findings.kind_after, hj]
    rfl
  simp only [lastClaim?, hclaims]

theorem Findings.owner?_after_of_none {n : Node α} (hj : jointOf? r.joints n = none)
    {js : List (Joint α)} : owner? js (r.after n) = owner? js n := by
  rw [owner?, Findings.lastClaim?_after_of_none hj, owner?]

theorem Refined.remark_after (h : Refined t ns r) {n : Node α} (hn : n ∈ ns) :
    remark (r.joints.filter Joint.isDecimal) (r.after n) = r.rerun.after n := by
  have hjoints : r.rerun.joints = r.joints := rfl
  cases hj : jointOf? r.joints n with
  | none =>
    rw [remark, Findings.owner?_after_of_none hj, Findings.after, Findings.after, settle, settle,
      hjoints, hj]
    rfl
  | some j =>
    rw [remark, h.findings.owner?_after h.resolved hn hj fun i hi => (List.mem_filter.1 hi).1,
      Findings.after, Findings.after, settle, settle, hjoints, hj]
    rfl

/-- What one more run leaves is again what a run leaves. -/
theorem Refined.rerun (h : Refined t ns r) :
    Refined t ns r.rerun ∧ refined t (ns.map r.after) = ns.map r.rerun.after := by
  have hspec := h.findings.spec h.resolved
  have hafter : refined t (ns.map r.after) = ns.map r.rerun.after := by
    rw [h.refined_after, List.map_map]
    exact List.map_congr_left fun n hn => h.remark_after hn
  refine ⟨⟨h.resolved, ⟨h.findings.joints, fun n hn hany => ?_⟩, ?_⟩, hafter⟩
  · cases hclaim : lastClaim? (r.joints.filter Joint.isDecimal) n with
    | none =>
      obtain ⟨p, hp, hne⟩ := h.findings.marked n hn hany
      refine ⟨p, ?_, hne⟩
      show (owner? (r.joints.filter Joint.isDecimal) n).or (r.part n) = some p
      rw [owner?, hclaim, hp]
      rfl
    | some j =>
      have hmem := (List.mem_filter.1 (lastClaim?_spec hclaim).1).1
      refine ⟨j.whole.id, ?_, h.resolved.ids _ (hspec.whole j hmem).1⟩
      show (owner? (r.joints.filter Joint.isDecimal) n).or (r.part n) = some j.whole.id
      rw [owner?, hclaim]
      rfl
  · rw [← hafter]
    exact numberAfter_numberAfter [] 0 _

end Enhance

end FormulaMap

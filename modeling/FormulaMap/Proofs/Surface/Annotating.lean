/-
Paths in data attributes: what is written to an element, and what is read from one.

Writing changes data attributes alone (`bare_inject`).  An element takes the path of the
first joined atom that was made from it (`writer?`) and refuses those of the others, since
it has a path then (`elementAt?_inject`).  Reading starts at the element of the atom
itself (`recoverNode_of_path`).
-/
import FormulaMap.Proofs.Layout.Mapping
import FormulaMap.Proofs.Surface.Placement
import FormulaMap.Surface.Attributes

namespace FormulaMap

/-! ## Attributes -/

theorem Fields.get?_put_of_ne {β : Type} {k k' : String} (h : k' ≠ k) (v : β) (fs : Fields β) :
    Fields.get? k (Fields.put k' v fs) = Fields.get? k fs := by
  induction fs with
  | nil => simp [put, get?, h]
  | cons f fs ih =>
    obtain ⟨j, w⟩ := f
    by_cases hj : j = k'
    · simp [put, get?, hj, h]
    · rw [put, if_neg hj, get?_cons, get?_cons, ih]

variable {α : Type}

namespace Element

variable (e : Element α) (k v : String)

theorem attribute?_setAttribute (hv : v ≠ "") : (e.setAttribute k v).attribute? k = some v := by
  rw [attribute?, setAttribute, Fields.get?_put_self, Option.filter_some, if_pos]
  simpa using hv

theorem attribute?_setAttribute_of_ne {k k' : String} (h : k' ≠ k) :
    (e.setAttribute k' v).attribute? k = e.attribute? k := by
  rw [attribute?, attribute?, setAttribute]
  exact congrArg (Option.filter _) (Fields.get?_put_of_ne h v e.data)

end Element

namespace SurfaceMap

section
variable (n : Node α) (p : String) (e : Element α)

theorem bare_describe : (describe n p e).bare = e.bare := by
  unfold describe
  dsimp only
  split
  · rfl
  · split
    · rfl
    · rfl

theorem path_describe (hp : p ≠ "") : (describe n p e).attribute? Attribute.path = some p := by
  have hset := Element.attribute?_setAttribute e Attribute.path p hp
  have hrole : Attribute.role ≠ Attribute.path := by decide
  have hoperator : Attribute.operator ≠ Attribute.path := by decide
  unfold describe
  dsimp only
  split
  · rw [Element.attribute?_setAttribute_of_ne _ _ hrole, hset]
  · split
    · rw [Element.attribute?_setAttribute_of_ne _ _ hoperator,
        Element.attribute?_setAttribute_of_ne _ _ hrole, hset]
    · exact hset

theorem operator_describe {n : Node α} {o : String} (hk : n.kind.isNumber = false)
    (ho : n.operator = some o) (hne : o ≠ "") :
    (describe n p e).attribute? Attribute.operator = some o := by
  unfold describe
  dsimp only
  rw [hk, if_neg Bool.false_ne_true, ho]
  exact Element.attribute?_setAttribute _ _ _ hne

end

/-! ## Writing -/

theorem bare_injectNode (state : Layout α × Nat) (n : Node α) :
    (injectNode state n).1.bare = state.1.bare := by
  unfold injectNode
  split
  · split
    · exact Tree.map_modifyAt (bare_describe n _) _ _
    · rfl
  · rfl

theorem bare_foldl_injectNode (ns : List (Node α)) (state : Layout α × Nat) :
    (ns.foldl injectNode state).1.bare = state.1.bare := by
  induction ns generalizing state with
  | nil => rfl
  | cons n ns ih => rw [List.foldl_cons, ih, bare_injectNode]

theorem bare_inject (m : SurfaceMap α) (page : Layout α) : (inject m page).1.bare = page.bare :=
  bare_foldl_injectNode m.atoms (page, 0)

/-- The element at an address. -/
def elementAt? (l : Layout α) (a : Address) : Option (Element α) := (l.at? a).map Tree.value

def writes (a : Address) (n : Node α) : Bool := n.isJoined && n.source == a

/-- The atom whose path an element takes: the first joined one that was made from it. -/
def writer? (m : SurfaceMap α) (a : Address) : Option (Node α) := m.atoms.find? (writes a)

theorem writer?_spec {m : SurfaceMap α} {a : Address} {w : Node α} (h : m.writer? a = some w) :
    w ∈ m.nodes ∧ w.isJoined = true := by
  have hwrites := List.find?_some h
  rw [writes, Bool.and_eq_true] at hwrites
  exact ⟨(List.mem_filter.1 (List.mem_of_find?_eq_some h)).1, hwrites.1⟩

theorem exists_writer {m : SurfaceMap α} {n : Node α} (hn : n ∈ m.atoms)
    (hjoined : n.isJoined = true) : ∃ w, m.writer? n.source = some w := by
  refine Option.isSome_iff_exists.1 (List.find?_isSome.2 ⟨n, hn, ?_⟩)
  rw [writes, hjoined, beq_self_eq_true, Bool.and_self]

theorem joined?_of_isJoined {n : Node α} (h : n.isJoined = true) :
    ∃ p, n.joined? = some p ∧ n.path = some p ∧ p ≠ "" := by
  rw [Node.isJoined, Option.isSome_iff_exists] at h
  obtain ⟨p, hp⟩ := h
  obtain ⟨hpath, hne⟩ := Option.filter_eq_some_iff.1 hp
  refine ⟨p, hp, hpath, ?_⟩
  simpa using hne

/-- What one atom does to the element at `a`. -/
def writtenBy (a : Address) (n : Node α) (e : Element α) : Element α :=
  if writes a n = true ∧ e.attribute? Attribute.path = none then describe n (n.path.getD "") e
  else e

theorem elementAt?_injectNode (state : Layout α × Nat) (n : Node α) (a : Address) :
    elementAt? (injectNode state n).1 a = (elementAt? state.1 a).map (writtenBy a n) := by
  unfold injectNode
  cases hjoined : n.joined? with
  | none =>
    have hwrites : writes a n = false := by
      rw [writes, Node.isJoined, hjoined]
      rfl
    have hsame : writtenBy a n = id := by
      funext e
      rw [writtenBy, hwrites, if_neg fun h => Bool.false_ne_true h.1]
      rfl
    rw [hsame, Option.map_id]
    rfl
  | some p =>
    have hisJoined : n.isJoined = true := by rw [Node.isJoined, hjoined]; rfl
    obtain ⟨q, hq, hpath, -⟩ := joined?_of_isJoined hisJoined
    obtain rfl := Option.some.inj (hjoined.symm.trans hq)
    have hwrites : writes a n = true ↔ n.source = a := by
      rw [writes, hisJoined, Bool.true_and, beq_iff_eq]
    dsimp only
    split
    · next hfree =>
      have hmodified := Tree.value_at?_modifyAt (describe n p) state.1 n.source a
      rw [elementAt?, hmodified, elementAt?]
      cases hat : state.1.at? a with
      | none => rfl
      | some l =>
        refine congrArg some ?_
        dsimp only
        by_cases ha : n.source = a
        · rw [isFree, ha, hat] at hfree
          rw [if_pos ha, writtenBy, if_pos ⟨hwrites.2 ha, Option.isNone_iff_eq_none.1 hfree⟩, hpath]
          rfl
        · rw [if_neg ha, writtenBy, if_neg fun h => ha (hwrites.1 h.1)]
    · next hfree =>
      rw [elementAt?]
      cases hat : state.1.at? a with
      | none => rfl
      | some l =>
        refine congrArg some ?_
        rw [writtenBy, if_neg]
        rintro ⟨ha, hnone⟩
        rw [isFree, hwrites.1 ha, hat, Bool.not_eq_true, Option.isNone_eq_false_iff, hnone] at hfree
        exact absurd hfree Bool.false_ne_true

theorem foldl_writtenBy_of_isSome {a : Address} {e : Element α}
    (he : (e.attribute? Attribute.path).isSome = true) (ns : List (Node α)) :
    ns.foldl (fun e n => writtenBy a n e) e = e := by
  induction ns with
  | nil => rfl
  | cons n ns ih =>
    have hsame : writtenBy a n e = e := by
      rw [writtenBy, if_neg]
      rintro ⟨-, hnone⟩
      rw [hnone] at he
      exact Bool.false_ne_true he
    rw [List.foldl_cons, hsame, ih]

/-- The first atom that writes to an element without a path is the only one. -/
theorem foldl_writtenBy {a : Address} {e : Element α} (he : e.attribute? Attribute.path = none)
    {ns : List (Node α)} {w : Node α} (hw : ns.find? (writes a) = some w) :
    ns.foldl (fun e n => writtenBy a n e) e = describe w (w.path.getD "") e := by
  induction ns with
  | nil => cases hw
  | cons n ns ih =>
    rw [List.foldl_cons, writtenBy, he]
    cases hn : writes a n with
    | true =>
      rw [List.find?_cons_of_pos hn, Option.some.injEq] at hw
      subst hw
      rw [writes, Bool.and_eq_true] at hn
      obtain ⟨p, -, hpath, hne⟩ := joined?_of_isJoined hn.1
      rw [if_pos ⟨rfl, rfl⟩]
      refine foldl_writtenBy_of_isSome ?_ ns
      rw [hpath, Option.getD_some, path_describe n p e hne]
      rfl
    | false =>
      rw [List.find?_cons_of_neg (by rw [hn]; exact Bool.false_ne_true)] at hw
      rw [if_neg fun h => Bool.false_ne_true h.1]
      exact ih hw

theorem elementAt?_foldl_injectNode (ns : List (Node α)) (state : Layout α × Nat) (a : Address) :
    elementAt? (ns.foldl injectNode state).1 a =
      (elementAt? state.1 a).map fun e => ns.foldl (fun e n => writtenBy a n e) e := by
  induction ns generalizing state with
  | nil => exact Option.map_id'.symm
  | cons n ns ih =>
    rw [List.foldl_cons, ih, elementAt?_injectNode, Option.map_map]
    rfl

theorem elementAt?_inject {m : SurfaceMap α} {page : Layout α} {a : Address} {e : Element α}
    (he : elementAt? page a = some e) (hfree : e.attribute? Attribute.path = none) {w : Node α}
    (hw : m.writer? a = some w) :
    elementAt? (inject m page).1 a = some (describe w (w.path.getD "") e) := by
  rw [inject, elementAt?_foldl_injectNode, he]
  exact congrArg some (foldl_writtenBy hfree hw)

/-! ## Reading -/

theorem exists_valuesTo {β : Type} {t s : Tree β} {a : Address} (h : t.at? a = some s) :
    ∃ above, t.valuesTo a = above ++ [s.value] := by
  induction a generalizing t with
  | nil =>
    obtain rfl := Option.some.inj h
    exact ⟨[], rfl⟩
  | cons i rest ih =>
    rw [Tree.at?] at h
    obtain ⟨c, hc, hs⟩ := Option.bind_eq_some_iff.1 h
    obtain ⟨above, habove⟩ := ih hs
    refine ⟨t.value :: above, ?_⟩
    rw [Tree.valuesTo, hc]
    exact congrArg (List.cons t.value) habove

/-- An annotated element is the nearest one to itself. -/
theorem annotated?_of_path {l : Layout α} {a : Address} {e : Element α}
    (h : elementAt? l a = some e) (he : (e.attribute? Attribute.path).isSome = true) :
    l.annotated? a = some e := by
  obtain ⟨s, hs, rfl⟩ := Option.map_eq_some_iff.1 h
  obtain ⟨above, habove⟩ := exists_valuesTo hs
  rw [Layout.annotated?, habove, List.reverse_append, List.reverse_singleton,
    List.singleton_append, Layout.firstAnnotated, if_pos he]

/-- A node is found under its identifier after nodes have been changed that keep theirs. -/
theorem find?_id_mapNodes {m : SurfaceMap α} {f : Node α → Node α} (hf : ∀ n, (f n).id = n.id)
    (hids : ∀ a ∈ m.nodes, ∀ b ∈ m.nodes, a.id = b.id → a = b) {n : Node α} (hn : n ∈ m.nodes) :
    (m.mapNodes f).find? n.id = some (f n) := by
  have hfound : m.nodes.find? (·.id == n.id) = some n := by
    have hsome : (m.nodes.find? (·.id == n.id)).isSome = true :=
      List.find?_isSome.2 ⟨n, hn, beq_self_eq_true n.id⟩
    obtain ⟨a, ha⟩ := Option.isSome_iff_exists.1 hsome
    have hid := List.find?_some ha
    rw [ha, hids a (List.mem_of_find?_eq_some ha) n hn (beq_iff_eq.1 hid)]
  rw [find?, nodes_mapNodes, List.find?_map]
  simp only [Function.comp_def, hf]
  rw [hfound]
  rfl

theorem recoverNode_id (layout : Layout α) (n : Node α) : (recoverNode layout n).id = n.id := by
  unfold recoverNode
  split
  · rfl
  · rfl

/-- An atom that has not been joined gets back what its own element says. -/
theorem recoverNode_of_path {page : Layout α} {n : Node α} {e : Element α}
    (hatom : n.atom = true) (hpath : n.path = none) (he : elementAt? page n.source = some e)
    (hannotated : (e.attribute? Attribute.path).isSome = true) :
    recoverNode page n = recoverFrom e n := by
  have hjoined : n.isJoined = false := by
    rw [Node.isJoined, Node.joined?, hpath]
    rfl
  rw [recoverNode, sourceOfPath?, hatom, hjoined, Bool.not_false, Bool.and_self, if_pos rfl,
    annotated?_of_path he hannotated]

end SurfaceMap

end FormulaMap

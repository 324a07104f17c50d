/-
Paths that are written to a layout, and read back from it.

A map that is built after writing is the map that was built before (`build_inject`), since
only data attributes have changed.  So each joined atom is found again under its
identifier, and it comes back with the path of the first joined atom of its element, and
with the operator of that atom where it is no number (`recover_inject`).
-/
import FormulaMap.Proofs.Surface.Annotating
import FormulaMap.Proofs.Surface.Delivery
import FormulaMap.Proofs.Surface.Idempotence

namespace FormulaMap

variable {α : Type}

/-! ## What joining names -/

theorem Expr.operator?_ne_empty {e : Expr} {s : String} {k : Nat} (h : e.operator? = some (s, k)) :
    s ≠ "" := by
  cases e with
  | binary o l r p =>
    obtain ⟨rfl, -⟩ := Prod.mk.inj (Option.some.inj h)
    cases o <;> decide
  | negation a p =>
    obtain ⟨rfl, -⟩ := Prod.mk.inj (Option.some.inj h)
    decide
  | numeral t p => cases h
  | fraction n d p => cases h
  | mixed w n d p => cases h

namespace Join

/-- No node has an empty operator. -/
def Named (m : SurfaceMap α) : Prop := ∀ n ∈ m.nodes, n.operator ≠ some ""

namespace Named

variable {m : SurfaceMap α} {f : Node α → Node α}

theorem mapIf (h : Named m) (p : Node α → Prop) [DecidablePred p]
    (hf : ∀ n, n.operator ≠ some "" → (f n).operator ≠ some "") :
    Named (m.mapNodes fun n => if p n then f n else n) := by
  intro n' hn'
  rw [SurfaceMap.nodes_mapNodes] at hn'
  obtain ⟨n, hn, rfl⟩ := List.mem_map.1 hn'
  split
  · exact hf n (h n hn)
  · exact h n hn

/-- A change of the node with a number, and one of nodes above it. -/
theorem updates (h : Named m) {k : Nat} {numbers : List Nat} {g : Node α → Node α}
    (hf : ∀ n, n.operator ≠ some "" → (f n).operator ≠ some "")
    (hg : ∀ n, n.operator ≠ some "" → (g n).operator ≠ some "") :
    Named (updateAll numbers g (m.update k f)) :=
  (h.mapIf _ hf).mapIf _ hg

theorem foldl {β : Type} {step : SurfaceMap α → β → SurfaceMap α} {xs : List β}
    (h : Named m) (hstep : ∀ m, ∀ x ∈ xs, Named m → Named (step m x)) : Named (xs.foldl step m) := by
  induction xs generalizing m with
  | nil => exact h
  | cons x xs ih =>
    exact ih (hstep m x List.mem_cons_self h)
      fun m y hy => hstep m y (List.mem_cons_of_mem x hy)

theorem joinNumeral (h : Named m) (d : NumeralDescriptor) (leaf : Node α) :
    Named (Join.joinNumeral d leaf m) := by
  refine h.updates ?_ ?_
  · exact fun _ hn => hn
  · exact fun _ hn => hn

theorem joinOperator (h : Named m) {d : OperatorDescriptor} (hd : d.symbol ≠ "") (rank : Nat)
    (leaf : Node α) : Named (Join.joinOperator d rank leaf m) := by
  have hfill : ∀ n : Node α, (fillOperator d rank n).operator ≠ some "" :=
    fun _ heq => hd (Option.some.inj heq)
  refine h.updates (fun n _ => hfill n) fun n hn => ?_
  split
  · exact hn
  · exact hfill n

theorem joinPart (h : Named m) (path : String) (part : Node α) :
    Named (Join.joinPart path part m) := by
  unfold Join.joinPart
  split
  · split
    · exact h
    · refine h.updates ?_ ?_
      · exact fun _ hn => hn
      · exact fun _ hn => hn
  · exact h

theorem joinMixed (h : Named m) (atoms : List (Node α)) (d : MixedDescriptor) (leaf : Node α) :
    Named (Join.joinMixed atoms d leaf m) := by
  unfold Join.joinMixed
  dsimp only
  refine mapIf (foldl (mapIf h _ ?_) fun _ part _ hm => hm.joinPart d.path part) _ ?_
  · exact fun _ hn => hn
  · exact fun _ hn => hn

theorem join [Coordinate α] (h : Named m) (t : Tolerances α) (e : Expr) :
    Named (m.join t e).1 := by
  have hnumerals : Named (numerals (m.leaves t) e.numerals m).1 :=
    h.foldl fun _ x _ hm => hm.joinNumeral x.1 x.2
  have hoperators : Named (operators (m.leaves t) e.operators
      (numerals (m.leaves t) e.numerals m).1).1 := by
    refine hnumerals.foldl fun _ x hx hm => hm.joinOperator ?_ x.1.2 x.2
    obtain ⟨y, -, -, hy⟩ := Expr.mem_of_mem_operators (mem_operatorPairs hx).1
    exact Expr.operator?_ne_empty hy
  exact hoperators.foldl fun _ x _ hm => hm.joinMixed _ x.1 x.2

end Named
end Join

/-! ## Nodes of a refined map -/

/-- The node may have another box and what the passes over atoms write. -/
inductive Node.Redrawn (a : Node α) : Node α → Prop where
  | mk (kind : Kind) (box : Box α) (slot : Option Nat) (marks : Marks) :
      Redrawn a { a with kind := kind, box := box, slot := slot, marks := marks }

theorem Node.Redrawn.id {a b : Node α} (h : a.Redrawn b) : b.id = a.id := by
  cases h
  rfl

namespace SurfaceMap

variable [Coordinate α]

theorem redrawn_enhance_build (t : Tolerances α) (container : Address) (layout : Layout α) :
    Changes Node.Redrawn (build t container layout) ((build t container layout).enhance t) := by
  have hplaced := placed_build t container layout
  have hwidened := widenedMap_build t container layout
  have hwiden : Changes Node.Redrawn (build t container layout)
      ((build t container layout).runPass t .widen) := by
    refine ⟨_, runPass_widen t hplaced, fun n _ => ?_⟩
    split
    · obtain ⟨box, widened, heq⟩ := widenBar_eq t.barExpansion (build t container layout).height n
      rw [heq]
      exact .mk n.kind box n.slot _
    · exact .mk n.kind n.box n.slot n.marks
  obtain ⟨g, hg, hrestore, -⟩ := exists_restore hwidened.placed
    (Enhance.map_asDrawn_refined t hwidened.unrefined.distinct)
  rw [enhance_eq_restore, hrestore]
  have hrefine : Changes Node.Redrawn ((build t container layout).runPass t .widen)
      (((build t container layout).runPass t .widen).mapNodes g) := by
    refine ⟨g, rfl, fun n _ => ?_⟩
    rw [Node.eq_of_asDrawn (hg n)]
    exact .mk _ n.box _ _
  refine hwiden.trans ?_ hrefine
  rintro a _ _ ⟨_, _, _, _⟩ ⟨kind, box, slot, marks⟩
  exact .mk kind box slot marks

/-- What is known of a node of a refined map that has not been joined. -/
structure Drawn (container : Address) (layout : Layout α) (n : Node α) : Prop where
  path : n.path = none
  operator : n.operator = none
  source : n.atom = true → ∃ l, Tree.Reaches container layout n.source l

theorem drawn_build (t : Tolerances α) (container : Address) (layout : Layout α) :
    ∀ n ∈ (build t container layout).nodes, Drawn container layout n := by
  intro n hn
  rcases List.mem_cons.1 hn with rfl | hn
  · exact ⟨rfl, rfl, fun hatom => absurd hatom Bool.false_ne_true⟩
  · obtain ⟨l, hreaches, d, -, hnode⟩ := exists_source t container layout n hn
    refine ⟨?_, ?_, fun _ => ⟨l, hreaches.reaches⟩⟩
    · rw [hnode]
      rfl
    · rw [hnode]
      rfl

theorem drawn_refined (t : Tolerances α) (container : Address) (layout : Layout α) :
    ∀ n ∈ ((build t container layout).enhance t).nodes, Drawn container layout n := by
  intro n hn
  obtain ⟨a, ha, _, _, _, _⟩ := (redrawn_enhance_build t container layout).exists_of_mem_nodes hn
  obtain ⟨hpath, hoperator, hsource⟩ := drawn_build t container layout a ha
  exact ⟨hpath, hoperator, hsource⟩

theorem eq_of_id_refined (t : Tolerances α) (container : Address) (layout : Layout α)
    {a b : Node α} (ha : a ∈ ((build t container layout).enhance t).nodes)
    (hb : b ∈ ((build t container layout).enhance t).nodes) (hid : a.id = b.id) : a = b := by
  obtain ⟨f, hf, hredrawn⟩ := redrawn_enhance_build t container layout
  rw [hf, nodes_mapNodes] at ha hb
  obtain ⟨a', ha', rfl⟩ := List.mem_map.1 ha
  obtain ⟨b', hb', rfl⟩ := List.mem_map.1 hb
  rw [(hredrawn a' ha').id, (hredrawn b' hb').id] at hid
  rw [eq_of_id t container layout ha' hb' hid]

/-! ## There and back -/

/-- The map that is built after writing is the one that was built before. -/
theorem build_inject (t : Tolerances α) {container : Address} {page layout : Layout α}
    (hlayout : page.at? container = some layout) (m : SurfaceMap α) :
    ∃ layout', (inject m page).1.at? container = some layout' ∧
      build t container layout' = build t container layout := by
  have hbare : ((inject m page).1.at? container).map Layout.bare =
      (page.at? container).map Layout.bare := by
    have hpages := congrArg (Tree.at? · container) (bare_inject m page)
    simp only [Layout.bare, Tree.at?_map] at hpages
    exact hpages
  rw [hlayout] at hbare
  obtain ⟨layout', hat, hsame⟩ := Option.map_eq_some_iff.1 hbare
  exact ⟨layout', hat, build_of_bare hsame t container⟩

/-- Every joined atom gets back the path of the first joined atom of its element, under its
own identifier, and the operator of that atom unless it is a number. -/
theorem recover_inject (t : Tolerances α) (page : Layout α) (container : Address)
    (layout : Layout α) (e : Expr) (hlayout : page.at? container = some layout)
    (hfree : ∀ x ∈ layout.preorder, x.attribute? Attribute.path = none) :
    let m := (((build t container layout).enhance t).join t e).1
    let page' := (inject m page).1
    ∃ layout', page'.at? container = some layout' ∧
      ∀ n ∈ m.atoms, n.isJoined = true → ∃ w, m.writer? n.source = some w ∧
        ∃ n', (recover page' ((build t container layout').enhance t)).1.find? n.id = some n' ∧
          n'.path = w.path ∧
          ∀ o, w.operator = some o → w.kind.isNumber = false → n'.operator = some o := by
  intro m page'
  obtain ⟨layout', hat, hbuild⟩ := build_inject t hlayout m
  refine ⟨layout', hat, fun n hn hjoined => ?_⟩
  rw [hbuild]
  obtain ⟨hnode, hatom⟩ := List.mem_filter.1 hn
  obtain ⟨a, ha, hwritten⟩ := (rewritten_join t e _).exists_of_mem_nodes hnode
  obtain ⟨hpath, hoperator, hsource⟩ := drawn_refined t container layout a ha
  rw [hwritten.atom] at hatom
  obtain ⟨l, r, haddress, hl⟩ := hsource hatom
  have helement : elementAt? page n.source = some l.value := by
    rw [elementAt?, hwritten.source, haddress, Tree.at?_append, hlayout, Option.bind_some, hl]
    rfl
  obtain ⟨w, hw⟩ := exists_writer hn hjoined
  obtain ⟨hwnode, hwjoined⟩ := writer?_spec hw
  obtain ⟨p, -, hwpath, hne⟩ := joined?_of_isJoined hwjoined
  have hinjected := elementAt?_inject helement (hfree l.value (Tree.value_mem_of_at? hl)) hw
  rw [hwpath, Option.getD_some, hwritten.source] at hinjected
  have hannotated := path_describe w p l.value hne
  have hrecovered : recoverNode page' a = recoverFrom (describe w p l.value) a :=
    recoverNode_of_path hatom hpath hinjected (by rw [hannotated]; rfl)
  have hfound : (recover page' ((build t container layout).enhance t)).1.find? n.id =
      some (recoverFrom (describe w p l.value) a) := by
    rw [hwritten.id, ← hrecovered]
    exact find?_id_mapNodes (recoverNode_id page')
      (fun b hb c hc => eq_of_id_refined t container layout hb hc) ha
  refine ⟨w, hw, _, hfound, hannotated.trans hwpath.symm, fun o ho hkind => ?_⟩
  have hnamed : Join.Named m := Join.Named.join (fun b hb => by
    rw [(drawn_refined t container layout b hb).operator]
    exact (Option.some_ne_none _).symm) t e
  have hnonempty : o ≠ "" := fun hempty => hnamed w hwnode (hempty ▸ ho)
  show a.operator.or _ = some o
  rw [hoperator, operator_describe p l.value hkind ho hnonempty]
  rfl

/-- A sum whose operands and operator are set as the text of one element. -/
def sumInOnePiece : Layout Rat :=
  let page : Box Rat := ⟨0, 0, 30, 10⟩
  .node ⟨["katex"], "", page, []⟩ [.node ⟨[formulaClass], "", page, []⟩
    [.node ⟨[groupClass], "", page, []⟩ [.node ⟨["mord"], "1+2", page, []⟩ []]]]

def onePlusTwo : Expr :=
  .binary .add (.numeral "1" (some "term[0]")) (.numeral "2" (some "term[1]")) (some "root")

/-- All three atoms of the element come back with the path of the first of them. -/
theorem recover_inject_sumInOnePiece :
    let m := (((build .standard [] sumInOnePiece).enhance .standard).join .standard onePlusTwo).1
    let page' := (inject m sumInOnePiece).1
    m.atoms.map (fun n => (n.id, n.path)) =
        [("num-1", some "term[0]"), ("op-2", some "root"), ("num-3", some "term[1]")] ∧
      ∀ n ∈ m.atoms, ∃ n',
        (recover page' ((build .standard [] page').enhance .standard)).1.find? n.id = some n' ∧
          n'.path = some "term[0]" := by
  intro m page'
  obtain ⟨layout', hat, hback⟩ := recover_inject .standard sumInOnePiece [] sumInOnePiece
    onePlusTwo rfl (by decide +kernel)
  obtain rfl : page' = layout' := Option.some.inj hat
  refine ⟨by decide +kernel, fun n hn => ?_⟩
  have hwriters : ∀ n ∈ m.atoms, n.isJoined = true ∧
      ∀ w ∈ m.writer? n.source, w.path = some "term[0]" := by decide +kernel
  obtain ⟨w, hw, n', hn', hpath, -⟩ := hback n hn (hwriters n hn).1
  exact ⟨n', hn', hpath.trans ((hwriters n hn).2 w hw)⟩

/-- The operator and the second operand do not get their own paths back. -/
theorem not_forall_recover_inject :
    ¬ ∀ (t : Tolerances Rat) (layout : Layout Rat) (e : Expr),
      (∀ x ∈ layout.preorder, x.attribute? Attribute.path = none) →
      let m := (((build t [] layout).enhance t).join t e).1
      let page' := (inject m layout).1
      ∀ n ∈ m.atoms, n.isJoined = true →
        ∃ n', (recover page' ((build t [] page').enhance t)).1.find? n.id = some n' ∧
          n'.path = n.path := by
  intro h
  have hlost :
      let m := (((build .standard [] sumInOnePiece).enhance .standard).join .standard onePlusTwo).1
      let page' := (inject m sumInOnePiece).1
      ∃ n ∈ m.atoms, n.isJoined = true ∧
        ((recover page' ((build .standard [] page').enhance .standard)).1.find? n.id).map (·.path) ≠
          some n.path := by decide +kernel
  obtain ⟨n, hn, hjoined, hpath⟩ := hlost
  obtain ⟨n', hfound, hown⟩ :=
    h .standard sumInOnePiece onePlusTwo (by decide +kernel) n hn hjoined
  rw [hfound, Option.map_some, hown] at hpath
  exact hpath rfl

end SurfaceMap
end FormulaMap

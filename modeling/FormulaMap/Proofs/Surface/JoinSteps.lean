/-
What a step of joining leaves behind.

Joining goes in steps, one for each pair, and each of them writes onto its leaf, gives the
path to the parts of the leaf, and fills in what is missing around the leaf.  What it leaves
behind (`Step.Done`) the steps for other leaves do not undo, since a node that is joined
receives nothing from them but a value where it has none (`Later`).  Where a step has been
done there is nothing left for it to write (`Step.Done.run_eq`).

Of what it writes a step reads no more than whether a node is joined and has a value; all
else it reads off the map without paths and what goes with them (`SurfaceMap.bare`).
-/
import FormulaMap.Proofs.Surface.Placement
import FormulaMap.Surface.Join
import Mathlib.Data.List.Induction

namespace FormulaMap

variable {α : Type}

/-! ## Maps without paths -/

/-- The node without what joining writes. -/
def Node.bare (n : Node α) : Node α :=
  { n with
    path := none, operator := none, operatorRank := none, value := none
    marks := { n.marks with mixed := none } }

theorem Node.number_eq_of_bare {a b : Node α} (h : b.bare = a.bare) : b.number = a.number :=
  (congrArg Node.number h :)

namespace SurfaceMap

def bare (m : SurfaceMap α) : SurfaceMap α := m.mapNodes Node.bare

variable {m m' : SurfaceMap α}

theorem atoms_bare : m.bare.atoms = m.atoms.map Node.bare := by
  rw [atoms, bare, nodes_mapNodes, List.filter_map]
  rfl

theorem numbers_bare : m.bare.nodes.map (·.number) = m.nodes.map (·.number) := by
  rw [bare, nodes_mapNodes, List.map_map]
  rfl

theorem nodup_numbers (h : m'.bare = m.bare) (hm : (m.nodes.map (·.number)).Nodup) :
    (m'.nodes.map (·.number)).Nodup := by
  rwa [← numbers_bare, h, numbers_bare]

theorem Changes.bare_eq {R : Node α → Node α → Prop} (h : Changes R m m')
    (hR : ∀ a b, R a b → b.bare = a.bare) : m'.bare = m.bare := by
  obtain ⟨f, rfl, hf⟩ := h
  have hroot : m.root.map (Node.bare ∘ f) = m.root.map Node.bare :=
    Tree.map_congr m.root fun n hn => hR n (f n) (hf n hn)
  unfold bare mapNodes
  dsimp only
  rw [Tree.map_map, hroot]

end SurfaceMap

namespace Join

open SurfaceMap

/-- What encloses a node is read off the bare map. -/
theorem enclosing_eq {m base : SurfaceMap α} (hm : m.bare = base) {test : Node α → Bool}
    (htest : ∀ n : Node α, test n.bare = test n) (n : Node α) :
    enclosing test m n = enclosing test base n := by
  have hpasses : ∀ k, ((base.nodeAt? k).map test).getD false =
      ((m.nodeAt? k).map test).getD false := fun k => by
    rw [← hm, bare, nodeAt?_mapNodes (f := Node.bare) (fun _ => rfl), Option.map_map]
    simp only [Function.comp_def, htest]
  unfold enclosing
  simp only [hpasses]

/-! ## What happens to a node -/

/-- What steps may do to a node.  It keeps what they read, it stays joined, and it keeps
having a value; and if none of the steps is for the node, then once it is joined it receives
no more than a value where it has none. -/
structure Later (own : Nat → Prop) (a b : Node α) : Prop where
  bare : b.bare = a.bare
  joined : a.isJoined = true → b.isJoined = true
  valued : a.value.isSome = true → b.value.isSome = true
  kept : ¬ own a.number → a.isJoined = true → ∃ v, b = { a with value := a.value.or v }

namespace Later

variable {own own' : Nat → Prop} {a b c : Node α}

theorem refl (a : Node α) : Later own a a :=
  ⟨rfl, id, id, fun _ _ => ⟨none, by rw [Option.or_none]⟩⟩

theorem number (h : Later own a b) : b.number = a.number := Node.number_eq_of_bare h.bare

theorem trans (h : Later own a b) (h' : Later own b c) : Later own a c where
  bare := h'.bare.trans h.bare
  joined := h'.joined ∘ h.joined
  valued := h'.valued ∘ h.valued
  kept hown hjoined := by
    obtain ⟨w, hc⟩ := h'.kept (h.number ▸ hown) (h.joined hjoined)
    obtain ⟨v, hb⟩ := h.kept hown hjoined
    refine ⟨v.or w, ?_⟩
    rw [hc, hb, Option.or_assoc]

theorem mono (h : Later own a b) (hown : ∀ k, own k → own' k) : Later own' a b :=
  ⟨h.bare, h.joined, h.valued, fun hnot => h.kept fun hk => hnot (hown _ hk)⟩

end Later

/-- What steps may do to the nodes that they are not for. -/
abbrev Filled : Node α → Node α → Prop := Later fun _ => False

section
variable {own own' : Nat → Prop} {m m' m'' : SurfaceMap α}

theorem later_trans (h : Changes (Later own) m m') (h' : Changes (Later own) m' m'') :
    Changes (Later own) m m'' :=
  h.trans (fun _ _ _ hab hbc => hab.trans hbc) h'

theorem later_mono (h : Changes Filled m m') : Changes (Later own) m m' :=
  h.mono fun _ _ hab => hab.mono fun _ hk => absurd hk id

theorem bare_eq_of_later (h : Changes (Later own) m m') : m'.bare = m.bare :=
  h.bare_eq fun _ _ hab => hab.bare

theorem later_updateAll {ks : List Nat} {f : Node α → Node α}
    (hf : ∀ n ∈ m.nodes, n.number ∈ ks → Later own n (f n)) :
    Changes (Later own) m (updateAll ks f m) := by
  refine ⟨_, rfl, fun n hn => ?_⟩
  split
  · next hmem => exact hf n hn (List.contains_iff_mem.1 hmem)
  · exact Later.refl n

end

/-! ## What has been written -/

theorem update_eq_updateAll (k : Nat) (f : Node α → Node α) (m : SurfaceMap α) :
    m.update k f = updateAll [k] f m := by
  unfold update updateAll
  simp

/-- The nodes with these numbers are as a change would leave them. -/
def Holds (ks : List Nat) (f : Node α → Node α) (m : SurfaceMap α) : Prop :=
  ∀ n ∈ m.nodes, n.number ∈ ks → f n = n

section
variable {ks : List Nat} {f : Node α → Node α} {m m' : SurfaceMap α}

theorem Holds.updateAll_eq (h : Holds ks f m) : updateAll ks f m = m := by
  refine mapNodes_eq_self_iff.2 fun n hn => ?_
  split
  · next hmem => exact h n hn (List.contains_iff_mem.1 hmem)
  · rfl

theorem holds_updateAll (htwice : ∀ n, f (f n) = f n) : Holds ks f (updateAll ks f m) := by
  intro n' hn' hk
  rw [updateAll, nodes_mapNodes] at hn'
  obtain ⟨n, -, rfl⟩ := List.mem_map.1 hn'
  by_cases hmem : ks.contains n.number = true
  · rw [if_pos hmem]
    exact htwice n
  · rw [if_neg hmem] at hk
    exact absurd (List.contains_iff_mem.2 hk) hmem

theorem Holds.later {own : Nat → Prop} (h : Holds ks f m) (hm : Changes (Later own) m m')
    (hf : ∀ a b, Later own a b → a.number ∈ ks → f a = a → f b = b) : Holds ks f m' := by
  intro b hb hk
  obtain ⟨a, ha, hab⟩ := hm.exists_of_mem_nodes hb
  have hmem : a.number ∈ ks := hab.number ▸ hk
  exact hf a b hab hmem (h a ha hmem)

end

/-- The nodes with this number are joined. -/
def Joined (k : Nat) (m : SurfaceMap α) : Prop :=
  ∀ n ∈ m.nodes, n.number = k → n.isJoined = true

theorem Joined.later {k : Nat} {own : Nat → Prop} {m m' : SurfaceMap α} (h : Joined k m)
    (hm : Changes (Later own) m m') : Joined k m' := by
  intro b hb hk
  obtain ⟨a, ha, hab⟩ := hm.exists_of_mem_nodes hb
  exact hab.joined (h a ha (hab.number.symm.trans hk))

/-! ## Filling in -/

theorem isJoined_of_path {n : Node α} {p : String} (hp : p ≠ "") (h : n.path = some p) :
    n.isJoined = true := by
  rw [Node.isJoined, Node.joined?, h, Option.filter_some, if_pos (by simpa using hp)]
  rfl

section
variable {p : String} {v : Option String} {n : Node α}

theorem fillNumber_eq_self_iff (hp : p ≠ "") :
    fillNumber p v n = n ↔ n.isJoined = true ∧ (v.isSome = true → n.value.isSome = true) := by
  have hvalue : (if n.value.isNone then v else n.value) = n.value ↔
      (v.isSome = true → n.value.isSome = true) := by
    cases n.value <;> simp
  constructor
  · intro hsame
    refine ⟨?_, hvalue.1 (congrArg Node.value hsame)⟩
    by_contra hjoined
    have hpath : (if n.isJoined then n.path else some p) = n.path := congrArg Node.path hsame
    rw [if_neg hjoined] at hpath
    exact hjoined (isJoined_of_path hp hpath.symm)
  · rintro ⟨hjoined, hsome⟩
    rw [fillNumber, if_pos hjoined, hvalue.2 hsome]

theorem filled_fillNumber : Filled n (fillNumber p v n) where
  bare := rfl
  joined hjoined := by
    rw [← hjoined, Node.isJoined, Node.joined?, fillNumber, if_pos hjoined]
    rfl
  valued hvalue := by
    show (if n.value.isNone then v else n.value).isSome = true
    rwa [if_neg (by simpa using Option.ne_none_iff_isSome.2 hvalue)]
  kept _ hjoined := by
    refine ⟨v, ?_⟩
    rw [fillNumber, if_pos hjoined]
    cases n.value <;> rfl

theorem filled_fillNumbersAbove (p : String) (v : Option String) (n : Node α) (m : SurfaceMap α) :
    Changes Filled m (fillNumbersAbove p v n m) :=
  later_updateAll fun _ _ _ => filled_fillNumber

theorem fillNumber_fillNumber (hp : p ≠ "") :
    fillNumber p v (fillNumber p v n) = fillNumber p v n := by
  refine (fillNumber_eq_self_iff hp).2 ⟨?_, fun hv => ?_⟩
  · by_cases hjoined : n.isJoined = true
    · exact filled_fillNumber.joined hjoined
    · exact isJoined_of_path hp (if_neg hjoined)
  · show (if n.value.isNone then v else n.value).isSome = true
    split
    · exact hv
    · next hvalue => simpa [Option.isSome_iff_ne_none] using hvalue

end

section
variable {d : OperatorDescriptor} {rank : Nat} {n : Node α}

theorem fillOperator_eq_self_iff (hp : d.path ≠ "") :
    (if n.isJoined then n else fillOperator d rank n) = n ↔ n.isJoined = true := by
  constructor
  · intro hsame
    by_contra hjoined
    rw [if_neg hjoined] at hsame
    exact hjoined (isJoined_of_path hp (congrArg Node.path hsame).symm)
  · exact fun hjoined => if_pos hjoined

theorem filled_fillOperator : Filled n (if n.isJoined then n else fillOperator d rank n) := by
  by_cases hjoined : n.isJoined = true
  · rw [if_pos hjoined]
    exact Later.refl n
  · rw [if_neg hjoined]
    exact ⟨rfl, fun h => absurd h hjoined, id, fun _ h => absurd h hjoined⟩

end

section
variable {p : String} {part : Node α} {m : SurfaceMap α}

theorem eq_of_nodeAt? (hdistinct : (m.nodes.map (·.number)).Nodup) {k : Nat} {a n : Node α}
    (hn : m.nodeAt? k = some n) (ha : a ∈ m.nodes) (hk : a.number = k) : a = n := by
  have hfound : m.nodeAt? a.number = some a := find?_number hdistinct ha
  rw [hk, hn] at hfound
  exact (Option.some.inj hfound).symm

theorem filled_joinPart (hdistinct : (m.nodes.map (·.number)).Nodup) :
    Changes Filled m (joinPart p part m) := by
  unfold joinPart
  split
  · next n hn =>
    split
    · exact Changes.refl Later.refl m
    · next hjoined =>
      rw [update_eq_updateAll, number_of_nodeAt? hn]
      -- the node that is written onto is the one that was found, which is not joined
      refine later_trans (later_updateAll fun a ha hk => ?_) (filled_fillNumbersAbove p none n _)
      obtain rfl := eq_of_nodeAt? hdistinct hn ha (List.mem_singleton.1 hk)
      exact ⟨rfl, fun h => absurd h hjoined, id, fun _ h => absurd h hjoined⟩
  · exact Changes.refl Later.refl m

theorem joined_joinPart (hp : p ≠ "") (hdistinct : (m.nodes.map (·.number)).Nodup) :
    Joined part.number (joinPart p part m) := by
  unfold joinPart
  split
  · next n hn =>
    split
    · next hjoined =>
      intro a ha hk
      exact eq_of_nodeAt? hdistinct hn ha hk ▸ hjoined
    · rw [update_eq_updateAll, number_of_nodeAt? hn]
      refine Joined.later (fun a ha hk => ?_) (filled_fillNumbersAbove p none n _)
      have hsame := holds_updateAll (f := fun n : Node α => { n with path := some p })
        (fun _ => rfl) a ha (List.mem_singleton.2 hk)
      exact isJoined_of_path hp (congrArg Node.path hsame).symm
  · next hn =>
    intro a ha hk
    exact absurd (beq_iff_eq.2 hk) (List.find?_eq_none.1 hn a ha)

theorem Joined.joinPart_eq (h : Joined part.number m) : joinPart p part m = m := by
  unfold joinPart
  split
  · next n hn =>
    exact if_pos (h n (List.mem_of_find?_eq_some hn) (number_of_nodeAt? hn))
  · rfl

end

/-! ## One thing after another -/

/-- What every step leaves behind is there in the end, if all steps keep it. -/
theorem foldl_done {β : Type} {step : SurfaceMap α → β → SurfaceMap α}
    {P : SurfaceMap α → Prop} {D : β → SurfaceMap α → Prop} {xs : List β}
    (hstep : ∀ x ∈ xs, ∀ m, P m → P (step m x)) (hdone : ∀ x ∈ xs, ∀ m, P m → D x (step m x))
    (hkeep : ∀ x ∈ xs, ∀ y ∈ xs, ∀ m, P m → D x m → D x (step m y))
    {m : SurfaceMap α} (hm : P m) : P (xs.foldl step m) ∧ ∀ x ∈ xs, D x (xs.foldl step m) := by
  induction xs using List.reverseRecOn with
  | nil => exact ⟨hm, fun x hx => absurd hx List.not_mem_nil⟩
  | append_singleton xs y ih =>
    have hy : y ∈ xs ++ [y] := by simp
    have hmem : ∀ x ∈ xs, x ∈ xs ++ [y] := fun x hx => List.mem_append_left [y] hx
    obtain ⟨hfold, hbefore⟩ := ih (fun x hx => hstep x (hmem x hx))
      (fun x hx => hdone x (hmem x hx))
      (fun x hx z hz => hkeep x (hmem x hx) z (hmem z hz))
    rw [List.foldl_append, List.foldl_cons, List.foldl_nil]
    refine ⟨hstep y hy _ hfold, fun x hx => ?_⟩
    rcases List.mem_append.1 hx with hx' | hx'
    · exact hkeep x hx y hy _ hfold (hbefore x hx')
    · rw [List.mem_singleton.1 hx']
      exact hdone y hy _ hfold

theorem foldl_eq_self {β : Type} {step : SurfaceMap α → β → SurfaceMap α} {xs : List β}
    {m : SurfaceMap α} (h : ∀ x ∈ xs, step m x = m) : xs.foldl step m = m :=
  List.foldlRecOn xs step (motive := (· = m)) rfl fun _ hb x hx => hb ▸ h x hx

/-! ## Steps -/

/-- A pair of a descriptor and a leaf, of one of the three passes. -/
inductive Step (α : Type) where
  | numeral (d : NumeralDescriptor) (leaf : Node α)
  | operator (d : OperatorDescriptor) (rank : Nat) (leaf : Node α)
  | mixed (d : MixedDescriptor) (leaf : Node α)

namespace Step

def leaf : Step α → Node α
  | numeral _ leaf => leaf
  | operator _ _ leaf => leaf
  | mixed _ leaf => leaf

def path : Step α → String
  | numeral d _ => d.path
  | operator d _ _ => d.path
  | mixed d _ => d.path

/-- The value for what encloses the leaf. -/
def value : Step α → Option String
  | numeral d _ => some d.text
  | operator _ _ _ => none
  | mixed _ _ => none

/-- What becomes of the leaf. -/
def write : Step α → Node α → Node α
  | numeral d _, n => { n with path := some d.path, value := some d.text }
  | operator d rank _, n => fillOperator d rank n
  | mixed d _, n =>
    { n with
      path := some d.path
      value := some d.whole
      marks := { n.marks with mixed := some ⟨d.whole, d.numerator, d.denominator⟩ } }

/-- What becomes of a node around the leaf. -/
def fill : Step α → Node α → Node α
  | numeral d _, n => fillNumber d.path (some d.text) n
  | operator d rank _, n => if n.isJoined then n else fillOperator d rank n
  | mixed d _, n => fillNumber d.path none n

def around (base : SurfaceMap α) : Step α → List Nat
  | numeral _ leaf => enclosing (·.kind.isNumeric) base leaf
  | operator _ _ leaf => enclosing (·.kind = leaf.kind) base leaf
  | mixed _ leaf => enclosing (·.kind.isNumeric) base leaf

def parts (base : SurfaceMap α) : Step α → List (Node α)
  | numeral _ _ => []
  | operator _ _ _ => []
  | mixed _ leaf => base.atoms.filter fun a => a.mixedOwner? == some leaf.id

/-- The step, which reads what encloses the leaf and the parts of the leaf off a map. -/
def run (base : SurfaceMap α) (s : Step α) (m : SurfaceMap α) : SurfaceMap α :=
  updateAll (s.around base) s.fill
    ((s.parts base).foldl (fun m part => joinPart s.path part m)
      (updateAll [s.leaf.number] s.write m))

/-- What the step leaves behind. -/
structure Done (base : SurfaceMap α) (s : Step α) (m : SurfaceMap α) : Prop where
  leaf : Holds [s.leaf.number] s.write m
  parts : ∀ part ∈ s.parts base, Joined part.number m
  around : Holds (s.around base) s.fill m

variable {s : Step α} {base m m' : SurfaceMap α} {n : Node α}

theorem write_write (n : Node α) : s.write (s.write n) = s.write n := by
  cases s <;> rfl

theorem bare_write (n : Node α) : (s.write n).bare = n.bare := by
  cases s <;> rfl

theorem path_write (n : Node α) : (s.write n).path = some s.path := by
  cases s <;> rfl

theorem write_valued (h : n.value.isSome = true) : (s.write n).value.isSome = true := by
  cases s with
  | numeral d leaf => rfl
  | operator d rank leaf => exact h
  | mixed d leaf => rfl

/-- A value that is given where there is none takes nothing from what was written. -/
theorem write_or (h : s.write n = n) (v : Option String) :
    s.write { n with value := n.value.or v } = { n with value := n.value.or v } := by
  rw [← h]
  cases s <;> rfl

theorem fill_eq_self_iff (hs : s.path ≠ "") :
    s.fill n = n ↔ n.isJoined = true ∧ (s.value.isSome = true → n.value.isSome = true) := by
  cases s with
  | numeral d leaf => exact fillNumber_eq_self_iff hs
  | operator d rank leaf => exact (fillOperator_eq_self_iff hs).trans (by simp [value])
  | mixed d leaf => exact fillNumber_eq_self_iff hs

theorem filled_fill (n : Node α) : Filled n (s.fill n) := by
  cases s with
  | numeral d leaf => exact filled_fillNumber
  | operator d rank leaf => exact filled_fillOperator
  | mixed d leaf => exact filled_fillNumber

theorem fill_fill (hs : s.path ≠ "") (n : Node α) : s.fill (s.fill n) = s.fill n := by
  cases s with
  | numeral d leaf => exact fillNumber_fillNumber hs
  | operator d rank leaf =>
    refine (fillOperator_eq_self_iff hs).2 ?_
    by_cases hjoined : n.isJoined = true
    · exact filled_fillOperator.joined hjoined
    · exact isJoined_of_path hs (by rw [fill, if_neg hjoined]; rfl)
  | mixed d leaf => exact fillNumber_fillNumber hs

theorem holds_write_later (hs : s.path ≠ "") {own : Nat → Prop} (hown : ¬ own s.leaf.number)
    (h : Holds [s.leaf.number] s.write m) (hm : Changes (Later own) m m') :
    Holds [s.leaf.number] s.write m' := by
  refine h.later hm fun a b hab hk hwrite => ?_
  have hjoined : a.isJoined = true := isJoined_of_path hs (hwrite ▸ path_write a)
  have hnot : ¬ own a.number := List.mem_singleton.1 hk ▸ hown
  obtain ⟨v, rfl⟩ := hab.kept hnot hjoined
  exact write_or hwrite v

/-- What is not for the leaf does not undo the step. -/
theorem Done.later (h : s.Done base m) (hs : s.path ≠ "") {own : Nat → Prop}
    (hown : ¬ own s.leaf.number) (hm : Changes (Later own) m m') : s.Done base m' where
  leaf := holds_write_later hs hown h.leaf hm
  parts part hpart := (h.parts part hpart).later hm
  around := by
    refine h.around.later hm fun a b hab _ hfill => ?_
    rw [fill_eq_self_iff hs] at hfill ⊢
    exact ⟨hab.joined hfill.1, fun hv => hab.valued (hfill.2 hv)⟩

theorem Done.run_eq (h : s.Done base m) : s.run base m = m := by
  rw [run, h.leaf.updateAll_eq,
    foldl_eq_self fun part hpart => (h.parts part hpart).joinPart_eq, h.around.updateAll_eq]

theorem later_write (hs : s.path ≠ "") :
    Changes (Later (· = s.leaf.number)) m (updateAll [s.leaf.number] s.write m) :=
  later_updateAll fun n _ hk => ⟨bare_write n, fun _ => isJoined_of_path hs (path_write n),
    write_valued, fun hnot => absurd (List.mem_singleton.1 hk) hnot⟩

/-- The parts of the leaf are joined, and nothing else is written over. -/
theorem later_parts (base : SurfaceMap α) (hs : s.path ≠ "")
    (hdistinct : (m.nodes.map (·.number)).Nodup) :
    Changes Filled m ((s.parts base).foldl (fun m part => joinPart s.path part m) m) ∧
      ∀ part ∈ s.parts base,
        Joined part.number ((s.parts base).foldl (fun m part => joinPart s.path part m) m) := by
  have hkept : ∀ m', Changes Filled m m' → (m'.nodes.map (·.number)).Nodup :=
    fun m' hm' => nodup_numbers (bare_eq_of_later hm') hdistinct
  refine foldl_done (P := Changes Filled m) (D := fun (part : Node α) m => Joined part.number m)
    (fun part _ m' hm' => later_trans hm' (filled_joinPart (hkept m' hm')))
    (fun part _ m' hm' => joined_joinPart hs (hkept m' hm'))
    (fun part _ part' _ m' hm' h => h.later (filled_joinPart (hkept m' hm')))
    (Changes.refl Later.refl m)

theorem run_spec (base : SurfaceMap α) (hs : s.path ≠ "")
    (hdistinct : (m.nodes.map (·.number)).Nodup) :
    Changes (Later (· = s.leaf.number)) m (s.run base m) ∧ s.Done base (s.run base m) := by
  have hwrite := later_write (m := m) hs
  have hdistinct' := nodup_numbers (bare_eq_of_later hwrite) hdistinct
  obtain ⟨hparts, hjoined⟩ := later_parts base hs hdistinct'
  have hfill : ∀ m' : SurfaceMap α, Changes Filled m' (updateAll (s.around base) s.fill m') :=
    fun m' => later_updateAll fun n _ _ => filled_fill n
  have hrest := later_trans hparts (hfill _)
  refine ⟨later_trans hwrite (later_mono hrest), ?_, ?_, ?_⟩
  · exact holds_write_later hs id (holds_updateAll write_write) hrest
  · exact fun part hpart => (hjoined part hpart).later (hfill _)
  · exact holds_updateAll (fill_fill hs)

end Step

end Join
end FormulaMap

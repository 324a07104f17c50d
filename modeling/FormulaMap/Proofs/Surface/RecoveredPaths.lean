/-
Where recovered paths come from.

The climb from an element ends at the nearest annotated element at it or above it, unless an
element that the renderer draws into comes first (`annotated?_concat` is one step of it).
So a path that is recovered is that of the nearest annotated element on the way from the
root of the page (`exists_nearest`), an atom with a path is left alone, and after one run
there is nothing left to recover.

Nothing but the class of an element ends the climb.  It leaves the container of the map
when no element on the way to the container is annotated or drawn into (`Bare`), and what
is recovered stays inside exactly when the page has nothing to offer to such atoms
(`staysInside_iff`).
-/
import FormulaMap.Proofs.Surface.Recovering
import Mathlib.Data.List.Infix

namespace FormulaMap

variable {α : Type}

namespace Tree

theorem isSome_at?_of_prefix {t : Tree α} {a b : Address} (hb : b <+: a)
    (h : (t.at? a).isSome = true) : (t.at? b).isSome = true := by
  obtain ⟨rest, rfl⟩ := hb
  rw [at?_append] at h
  cases hat : t.at? b with
  | none => rw [hat] at h; cases h
  | some s => rfl

end Tree

namespace SurfaceMap

/-! ## The climb -/

/-- The path that the element at an address is annotated with. -/
def pathAt? (page : Layout α) (a : Address) : Option String :=
  (elementAt? page a).bind (·.attribute? Attribute.path)

/-- The renderer draws into the element at an address. -/
def drawsAt (page : Layout α) (a : Address) : Bool :=
  (elementAt? page a).any (·.hasClass Attribute.containerClass)

/-- Of the elements above `a` and at it, that at `b` is the nearest with a path. -/
structure Nearest (page : Layout α) (a b : Address) (path : String) : Prop where
  above : b <+: a
  path : pathAt? page b = some path
  nearest : ∀ b', b <+: b' → b' <+: a → b' ≠ b → pathAt? page b' = none

/-- Nothing on the way from `a` up to `container` ends the climb. -/
def Bare (page : Layout α) (container a : Address) : Prop :=
  ∀ b, container <+: b → b <+: a → pathAt? page b = none ∧ drawsAt page b = false

section
variable {page : Layout α} {a b container : Address} {i : Nat} {e : Element α} {path : String}

theorem annotated?_nil (page : Layout α) :
    page.annotated? [] =
      if (pathAt? page []).isSome then some page.value else none := by
  rw [Layout.annotated?, Tree.valuesTo, List.reverse_singleton, Layout.firstAnnotated,
    Layout.firstAnnotated, ite_self]
  rfl

theorem annotated?_concat {s : Layout α} (h : page.at? (a ++ [i]) = some s) :
    page.annotated? (a ++ [i]) =
      if (pathAt? page (a ++ [i])).isSome then some s.value
      else if drawsAt page (a ++ [i]) then none
      else page.annotated? a := by
  rw [Layout.annotated?, Tree.valuesTo_concat h, List.reverse_concat, Layout.firstAnnotated,
    pathAt?, drawsAt, elementAt?, h]
  rfl

theorem annotated?_of_drawsAt (hat : (page.at? a).isSome = true) (hpath : pathAt? page a = none)
    (hdraws : drawsAt page a = true) : page.annotated? a = none := by
  obtain ⟨s, hs⟩ := Option.isSome_iff_exists.1 hat
  rcases List.eq_nil_or_concat' a with rfl | ⟨above, i, rfl⟩
  · rw [annotated?_nil, hpath]
    rfl
  · rw [annotated?_concat hs, hpath, if_neg (by simp), if_pos hdraws]

theorem exists_annotated?_of_pathAt? (h : pathAt? page a = some path) :
    ∃ e, page.annotated? a = some e ∧ e.attribute? Attribute.path = some path := by
  obtain ⟨e, he, hpath⟩ := Option.bind_eq_some_iff.1 h
  exact ⟨e, annotated?_of_path he (Option.isSome_of_eq_some hpath), hpath⟩

theorem Nearest.self (h : pathAt? page a = some path) : Nearest page a a path where
  above := List.prefix_refl a
  path := h
  nearest := fun _ hb hb' hne => absurd (hb'.eq_of_length_le hb.length_le) hne

theorem Nearest.concat (h : Nearest page a b path) (hnone : pathAt? page (a ++ [i]) = none) :
    Nearest page (a ++ [i]) b path where
  above := h.above.trans (List.prefix_append a [i])
  path := h.path
  nearest := by
    intro b' hb hb' hne
    rcases List.prefix_concat_iff.1 hb' with rfl | hb'
    · exact hnone
    · exact h.nearest b' hb hb' hne

theorem bare_concat_iff (h : container <+: a) :
    Bare page container (a ++ [i]) ↔
      Bare page container a ∧ pathAt? page (a ++ [i]) = none ∧ drawsAt page (a ++ [i]) = false := by
  constructor
  · intro hbare
    refine ⟨fun b hb hb' => hbare b hb (hb'.trans (List.prefix_append a [i])), ?_⟩
    exact hbare _ (h.trans (List.prefix_append a [i])) (List.prefix_refl _)
  · rintro ⟨hbare, hlast⟩ b hb hb'
    rcases List.prefix_concat_iff.1 hb' with rfl | hb'
    · exact hlast
    · exact hbare b hb hb'

theorem bare_self_iff :
    Bare page container container ↔
      pathAt? page container = none ∧ drawsAt page container = false := by
  constructor
  · exact fun h => h container (List.prefix_refl _) (List.prefix_refl _)
  · rintro h b hb hb'
    rwa [hb'.eq_of_length_le hb.length_le]

/-- What the climb finds below a container is inside it, unless there is nothing on the way up
to the container. -/
theorem nearest_or_bare {rest : Address} (hat : (page.at? (container ++ rest)).isSome = true)
    (h : page.annotated? (container ++ rest) = some e) :
    (∃ b path, container <+: b ∧ Nearest page (container ++ rest) b path ∧
      e.attribute? Attribute.path = some path) ∨
    Bare page container (container ++ rest) := by
  induction rest using List.reverseRecOn with
  | nil =>
    rw [List.append_nil] at hat h ⊢
    cases hpath : pathAt? page container with
    | none =>
      refine Or.inr (bare_self_iff.2 ⟨hpath, ?_⟩)
      rw [Bool.eq_false_iff]
      exact fun hdraws => nomatch h.symm.trans (annotated?_of_drawsAt hat hpath hdraws)
    | some path =>
      obtain ⟨e', he', hattribute⟩ := exists_annotated?_of_pathAt? hpath
      obtain rfl := Option.some.inj (he'.symm.trans h)
      exact Or.inl ⟨container, path, List.prefix_refl _, .self hpath, hattribute⟩
  | append_singleton rest i ih =>
    rw [← List.append_assoc] at hat h ⊢
    have habove := Tree.isSome_at?_of_prefix (List.prefix_append _ [i]) hat
    obtain ⟨s, hs⟩ := Option.isSome_iff_exists.1 hat
    cases hpath : pathAt? page (container ++ rest ++ [i]) with
    | some path =>
      obtain ⟨e', he', hattribute⟩ := exists_annotated?_of_pathAt? hpath
      obtain rfl := Option.some.inj (he'.symm.trans h)
      refine Or.inl ⟨_, path, ?_, .self hpath, hattribute⟩
      rw [List.append_assoc]
      exact List.prefix_append _ _
    | none =>
      rw [annotated?_concat hs, hpath, if_neg (by simp)] at h
      split at h
      · exact nomatch h
      · next hdraws =>
        rcases ih habove h with ⟨b, path, hb, hnearest, he⟩ | hbare
        · exact Or.inl ⟨b, path, hb, hnearest.concat hpath, he⟩
        · exact Or.inr ((bare_concat_iff (List.prefix_append _ _)).2
            ⟨hbare, hpath, Bool.eq_false_iff.2 hdraws⟩)

/-- Where there is nothing on the way up to the container, the climb goes on above it. -/
theorem annotated?_of_bare {rest : Address} (hat : (page.at? (container ++ rest)).isSome = true)
    (hbare : Bare page container (container ++ rest)) :
    page.annotated? (container ++ rest) = page.annotated? container := by
  induction rest using List.reverseRecOn with
  | nil => rw [List.append_nil]
  | append_singleton rest i ih =>
    rw [← List.append_assoc] at hat hbare ⊢
    have habove := Tree.isSome_at?_of_prefix (List.prefix_append _ [i]) hat
    obtain ⟨s, hs⟩ := Option.isSome_iff_exists.1 hat
    obtain ⟨hbare, hpath, hdraws⟩ := (bare_concat_iff (List.prefix_append _ _)).1 hbare
    rw [annotated?_concat hs, hpath, hdraws, if_neg (by simp), if_neg Bool.false_ne_true,
      ih habove hbare]

/-- What the climb finds is the nearest annotated element of the page. -/
theorem exists_nearest (hat : (page.at? a).isSome = true) (h : page.annotated? a = some e) :
    ∃ b path, Nearest page a b path ∧ e.attribute? Attribute.path = some path := by
  rw [← List.nil_append a] at hat h
  rcases nearest_or_bare hat h with ⟨b, path, -, hnearest, he⟩ | hbare
  · exact ⟨b, path, hnearest, he⟩
  · have hroot := annotated?_of_bare hat hbare
    rw [h, annotated?_nil, (hbare [] (List.prefix_refl _) List.nil_prefix).1] at hroot
    exact nomatch hroot

end

/-! ## What is recovered -/

section
variable {page : Layout α} {n : Node α} {e : Element α}

theorem recoverNode_of_none (h : sourceOfPath? page n = none) : recoverNode page n = n := by
  rw [recoverNode, h]

theorem recoverNode_of_some (h : sourceOfPath? page n = some e) :
    recoverNode page n = recoverFrom e n := by
  rw [recoverNode, h]

theorem sourceOfPath?_of_joined (h : n.isJoined = true) : sourceOfPath? page n = none := by
  rw [sourceOfPath?, h, Bool.not_true, Bool.and_false, if_neg Bool.false_ne_true]

theorem sourceOfPath?_of_not_atom (h : n.atom = false) : sourceOfPath? page n = none := by
  rw [sourceOfPath?, h, Bool.false_and, if_neg Bool.false_ne_true]

theorem sourceOfPath?_of_atom (hatom : n.atom = true) (hjoined : n.isJoined = false) :
    sourceOfPath? page n = page.annotated? n.source := by
  rw [sourceOfPath?, hatom, hjoined, Bool.not_false, Bool.and_self, if_pos rfl]

theorem sourceOfPath?_eq_some (h : sourceOfPath? page n = some e) :
    n.atom = true ∧ n.isJoined = false ∧ page.annotated? n.source = some e := by
  unfold sourceOfPath? at h
  rw [Option.ite_none_right_eq_some, Bool.and_eq_true, Bool.not_eq_true'] at h
  exact ⟨h.1.1, h.1.2, h.2⟩

theorem path_ne_empty {path : String} (h : e.attribute? Attribute.path = some path) :
    path ≠ "" := by
  have hne := (Option.filter_eq_some_iff.1 h).2
  simpa using hne

/-- A node whose path is recovered had none, and has one now. -/
theorem isJoined_recoverFrom {path : String} (h : e.attribute? Attribute.path = some path) :
    (recoverFrom e n).isJoined = true := by
  rw [Node.isJoined, Node.joined?, recoverFrom, h, Option.filter_some, if_pos]
  · rfl
  · simpa using path_ne_empty h

theorem exists_path_of_annotated? {a : Address} (h : page.annotated? a = some e) :
    ∃ path, e.attribute? Attribute.path = some path := by
  have hmem : ∀ es : List (Element α), Layout.firstAnnotated es = some e →
      (e.attribute? Attribute.path).isSome = true := by
    intro es
    induction es with
    | nil =>
      intro h
      cases h
    | cons x es ih =>
      intro h
      rw [Layout.firstAnnotated] at h
      split at h
      · next hpath =>
        obtain rfl := Option.some.inj h
        exact hpath
      · split at h
        · cases h
        · exact ih h
  exact Option.isSome_iff_exists.1 (hmem _ h)

/-- Recovering changes a node exactly when it gives it another path. -/
theorem recoverNode_path_ne (h : sourceOfPath? page n = some e) :
    (recoverNode page n).path ≠ n.path := by
  obtain ⟨-, hjoined, hannotated⟩ := sourceOfPath?_eq_some h
  obtain ⟨path, hpath⟩ := exists_path_of_annotated? hannotated
  rw [recoverNode_of_some h]
  intro heq
  have hnew := isJoined_recoverFrom (n := n) hpath
  rw [Node.isJoined, Node.joined?, heq, ← Node.joined?, ← Node.isJoined, hjoined] at hnew
  exact Bool.false_ne_true hnew

theorem isSome_sourceOfPath? (page : Layout α) (n : Node α) :
    (sourceOfPath? page n).isSome = ((recoverNode page n).path != n.path) := by
  cases h : sourceOfPath? page n with
  | none => rw [recoverNode_of_none h, bne_self_eq_false]; rfl
  | some e => exact (bne_iff_ne.2 (recoverNode_path_ne h)).symm

/-- There is nothing left to recover from a node. -/
theorem sourceOfPath?_recoverNode (page : Layout α) (n : Node α) :
    sourceOfPath? page (recoverNode page n) = none := by
  cases h : sourceOfPath? page n with
  | none => rw [recoverNode_of_none h, h]
  | some e =>
    obtain ⟨path, hpath⟩ := exists_path_of_annotated? (sourceOfPath?_eq_some h).2.2
    rw [recoverNode_of_some h]
    exact sourceOfPath?_of_joined (isJoined_recoverFrom hpath)

theorem recover_recover (page : Layout α) (m : SurfaceMap α) :
    recover page (recover page m).1 = ((recover page m).1, 0) := by
  have hnodes : (recover page m).1.nodes = m.nodes.map (recoverNode page) := nodes_mapNodes _ m
  refine Prod.ext ?_ ?_
  · show (recover page m).1.mapNodes (recoverNode page) = (recover page m).1
    refine mapNodes_eq_self_iff.2 fun n hn => ?_
    rw [hnodes] at hn
    obtain ⟨n, -, rfl⟩ := List.mem_map.1 hn
    exact recoverNode_of_none (sourceOfPath?_recoverNode page n)
  · show (recover page m).1.nodes.countP _ = 0
    rw [hnodes, List.countP_eq_zero]
    intro n hn
    obtain ⟨n, -, rfl⟩ := List.mem_map.1 hn
    rw [sourceOfPath?_recoverNode]
    exact Bool.false_ne_true

end

/-! ## The container -/

/-- What recovering does, wherever the container of the map lies in the page. -/
structure Recovers (page : Layout α) (m : SurfaceMap α) : Prop where
  nodes : (recover page m).1.nodes = m.nodes.map (recoverNode page)
  others : ∀ n ∈ m.nodes, n.atom = false → recoverNode page n = n
  joined : ∀ n ∈ m.atoms, n.isJoined = true → recoverNode page n = n
  /-- What is written is the path of the nearest annotated element of the page. -/
  nearest : ∀ n ∈ m.atoms, recoverNode page n ≠ n →
    ∃ b path, Nearest page n.source b path ∧ (recoverNode page n).path = some path
  /-- A node is changed exactly when its path is, and the changed nodes are counted. -/
  changed_iff : ∀ n, recoverNode page n ≠ n ↔ (recoverNode page n).path ≠ n.path
  count : (recover page m).2 = m.nodes.countP fun n => (recoverNode page n).path != n.path
  again : recover page (recover page m).1 = ((recover page m).1, 0)

/-- What is recovered comes from the container or from inside it. -/
structure StaysInside (page : Layout α) (container : Address) (m : SurfaceMap α) : Prop where
  inside : ∀ n ∈ m.atoms, recoverNode page n ≠ n →
    ∃ b path, container <+: b ∧ Nearest page n.source b path ∧
      (recoverNode page n).path = some path
  /-- An atom with nothing between its element and the container is left alone. -/
  untouched : ∀ n ∈ m.atoms, (∀ b, container <+: b → b <+: n.source → pathAt? page b = none) →
    recoverNode page n = n

section
variable {page : Layout α} {container : Address} {m : SurfaceMap α}

theorem exists_sourceOfPath? {n : Node α} (h : recoverNode page n ≠ n) :
    ∃ e, sourceOfPath? page n = some e := by
  cases hsource : sourceOfPath? page n with
  | none => exact absurd (recoverNode_of_none hsource) h
  | some e => exact ⟨e, rfl⟩

theorem recoverNode_ne_of_annotated? {n : Node α} {e : Element α} (hatom : n.atom = true)
    (hjoined : n.isJoined = false) (h : page.annotated? n.source = some e) :
    recoverNode page n ≠ n := by
  have hsource : sourceOfPath? page n = some e := by rw [sourceOfPath?_of_atom hatom hjoined, h]
  exact fun heq => recoverNode_path_ne hsource (congrArg Node.path heq)

theorem recovers (hat : ∀ n ∈ m.atoms, (page.at? n.source).isSome = true) : Recovers page m where
  nodes := nodes_mapNodes _ m
  others := fun _ _ h => recoverNode_of_none (sourceOfPath?_of_not_atom h)
  joined := fun _ _ h => recoverNode_of_none (sourceOfPath?_of_joined h)
  nearest := by
    intro n hn hne
    obtain ⟨e, hsource⟩ := exists_sourceOfPath? hne
    obtain ⟨b, path, hnearest, he⟩ := exists_nearest (hat n hn) (sourceOfPath?_eq_some hsource).2.2
    exact ⟨b, path, hnearest, by rw [recoverNode_of_some hsource]; exact he⟩
  changed_iff := by
    intro n
    constructor
    · intro hne
      obtain ⟨e, hsource⟩ := exists_sourceOfPath? hne
      exact recoverNode_path_ne hsource
    · exact fun hne heq => hne (congrArg Node.path heq)
  count := List.countP_congr fun n _ => by rw [isSome_sourceOfPath?]
  again := recover_recover page m

/-- What is recovered stays inside exactly when no climb that reaches the container without
being ended finds anything above it. -/
theorem staysInside_iff
    (hat : ∀ n ∈ m.atoms, ∃ rest, n.source = container ++ rest ∧
      (page.at? n.source).isSome = true) :
    StaysInside page container m ↔ ∀ n ∈ m.atoms, n.isJoined = false →
      Bare page container n.source → page.annotated? container = none := by
  constructor
  · intro h n hn hjoined hbare
    obtain ⟨rest, hrest, hsome⟩ := hat n hn
    have hsame := h.untouched n hn fun b hb hb' => (hbare b hb hb').1
    rw [hrest] at hbare hsome
    rw [← annotated?_of_bare hsome hbare, ← hrest, Option.eq_none_iff_forall_ne_some]
    exact fun e he =>
      recoverNode_ne_of_annotated? (List.mem_filter.1 hn).2 hjoined he hsame
  · intro h
    -- A climb that finds something has found it inside, or there is nothing to be found.
    have hfound : ∀ n ∈ m.atoms, recoverNode page n ≠ n →
        ∃ b path, container <+: b ∧ Nearest page n.source b path ∧
          (recoverNode page n).path = some path := by
      intro n hn hne
      obtain ⟨rest, hrest, hsome⟩ := hat n hn
      obtain ⟨e, hsource⟩ := exists_sourceOfPath? hne
      obtain ⟨-, hjoined, hannotated⟩ := sourceOfPath?_eq_some hsource
      rw [hrest] at hsome hannotated
      rcases nearest_or_bare hsome hannotated with ⟨b, path, hb, hnearest, he⟩ | hbare
      · refine ⟨b, path, hb, hrest ▸ hnearest, ?_⟩
        rw [recoverNode_of_some hsource]
        exact he
      · have hnone := h n hn hjoined (hrest ▸ hbare)
        rw [annotated?_of_bare hsome hbare, hnone] at hannotated
        exact nomatch hannotated
    refine ⟨hfound, fun n hn hfree => ?_⟩
    by_contra hne
    obtain ⟨b, path, hb, hnearest, -⟩ := hfound n hn hne
    exact nomatch (hfree b hb hnearest.above).symm.trans hnearest.path

variable [Coordinate α]

/-- The atoms of a map, joined or not, are made from elements at the container or below it. -/
theorem source_of_mem_atoms (t : Tolerances α) {layout : Layout α} (e : Option Expr)
    (hlayout : page.at? container = some layout) :
    ∀ n ∈ (((build t container layout).enhance t).joinOption t e).1.atoms,
      ∃ rest, n.source = container ++ rest ∧ (page.at? n.source).isSome = true := by
  intro n hn
  have hwritten : Changes Join.Rewritten ((build t container layout).enhance t)
      (((build t container layout).enhance t).joinOption t e).1 := by
    cases e with
    | none => exact Changes.refl (fun _ => .same) _
    | some e => exact rewritten_join t e _
  obtain ⟨hnode, hatom⟩ := List.mem_filter.1 hn
  obtain ⟨a, ha, hrewritten⟩ := hwritten.exists_of_mem_nodes hnode
  rw [hrewritten.atom] at hatom
  obtain ⟨l, rest, hsource, hl⟩ := (drawn_refined t container layout a ha).source hatom
  refine ⟨rest, by rw [hrewritten.source, hsource], ?_⟩
  rw [hrewritten.source, hsource, Tree.at?_append, hlayout, Option.bind_some, hl]
  rfl

/-- For every container in a page: paths are recovered from the nearest annotated elements of
the page, and these are inside the container unless an atom without a path has nothing between
its element and the container that ends the climb, and the page is annotated above. -/
theorem recovers_and_staysInside_iff (t : Tolerances α) (page : Layout α) (container : Address)
    (layout : Layout α) (e : Option Expr) (hlayout : page.at? container = some layout) :
    let m := (((build t container layout).enhance t).joinOption t e).1
    Recovers page m ∧
      (StaysInside page container m ↔ ∀ n ∈ m.atoms, n.isJoined = false →
        Bare page container n.source → page.annotated? container = none) := by
  intro m
  have hsource := source_of_mem_atoms t e hlayout
  refine ⟨recovers fun n hn => ?_, staysInside_iff hsource⟩
  obtain ⟨-, -, hat⟩ := hsource n hn
  exact hat

end

/-! ## A page around a formula -/

/-- A formula of one numeral, of which the outermost element has these classes. -/
def numeralIn (classes : List String) : Layout Rat :=
  let box : Box Rat := ⟨0, 0, 30, 10⟩
  .node ⟨classes, "", box, []⟩ [.node ⟨[formulaClass], "", box, []⟩
    [.node ⟨[groupClass], "", box, []⟩ [.node ⟨["mord"], "2", box, []⟩ []]]]

/-- A page that has a path of its own, with this formula in it. -/
def pageAround (formula : Layout Rat) : Layout Rat :=
  .node ⟨["page"], "", ⟨0, 0, 30, 10⟩, [(Attribute.path, "root")]⟩ [formula]

/-- Where the renderer draws into the container, the climb ends there. -/
theorem staysInside_drawnInto :
    let formula := numeralIn [Attribute.containerClass]
    let m := (((build .standard [0] formula).enhance .standard).joinOption .standard none).1
    (pageAround formula).at? [0] = some formula ∧
      m.atoms.map (·.source) = [[0, 0, 0], [0, 0, 0, 0]] ∧
      StaysInside (pageAround formula) [0] m := by
  intro formula m
  have hat : (pageAround formula).at? [0] = some formula := rfl
  have hrecovers := recovers_and_staysInside_iff .standard (pageAround formula) [0] formula none hat
  refine ⟨hat, by decide +kernel, hrecovers.2.2 fun n hn _ hbare => ?_⟩
  obtain ⟨rest, hrest, -⟩ := source_of_mem_atoms .standard none hat n hn
  have hdraws := (hbare [0] (List.prefix_refl _) ⟨rest, hrest.symm⟩).2
  exact absurd hdraws (by decide)

/-- Where it does not, the path of the page is given to what is in the formula. -/
theorem not_forall_staysInside :
    ¬ ∀ (t : Tolerances Rat) (page : Layout Rat) (container : Address) (layout : Layout Rat),
      page.at? container = some layout →
      StaysInside page container ((build t container layout).enhance t) := by
  intro h
  have hstays := h .standard (pageAround (numeralIn ["katex"])) [0] (numeralIn ["katex"]) rfl
  have hleft : ∃ n ∈ ((build .standard [0] (numeralIn ["katex"])).enhance .standard).atoms,
      (∀ b ∈ n.source.inits, [0].isPrefixOf b = true →
        pathAt? (pageAround (numeralIn ["katex"])) b = none) ∧
      recoverNode (pageAround (numeralIn ["katex"])) n ≠ n := by decide +kernel
  obtain ⟨n, hn, hfree, hne⟩ := hleft
  refine hne (hstays.untouched n hn fun b hb hb' => ?_)
  exact hfree b ((List.mem_inits b n.source).2 hb') (List.isPrefixOf_iff_prefix.2 hb)

end SurfaceMap
end FormulaMap

/-
What the walk visits.

The walk goes through every group, and in a group through every element, in document
order (`Tree.places`).  At an element it drafts the nodes that are made from the element
itself (`ownDrafts`): none, one for the whole element, or one for every segment of its
text.  So the drafts of a map are those of the visited elements in turn
(`preorderAll_drafts`), and an element is visited once for every group that it lies in.
When no group lies in another, the visited elements are elements of the layout in
document order, each of them once (`visits_sublist`).
-/
import FormulaMap.Proofs.Surface.Sources
import Mathlib.Data.List.Nodup
import Mathlib.Data.List.Perm.Subperm

namespace FormulaMap

variable {α : Type}

/-! ## Places of a tree -/

namespace Tree

mutual

/-- Every subtree with its address, each before those below it, when the tree itself
stands at `here`. -/
def places (here : Address) : Tree α → List (Address × Tree α)
  | node a cs => (here, node a cs) :: placesFrom here 0 cs

/-- The places below `here` among its children, of which the first has index `i`. -/
def placesFrom (here : Address) (i : Nat) : List (Tree α) → List (Address × Tree α)
  | [] => []
  | t :: ts => places (here ++ [i]) t ++ placesFrom here (i + 1) ts

end

theorem places_eq (here : Address) (t : Tree α) :
    places here t = (here, t) :: placesFrom here 0 t.children := by
  cases t with
  | node a cs => exact places.eq_1 here a cs

/-- An address leads to the tree itself, or on from one of its children. -/
theorem reaches_iff {base here : Address} {root l : Tree α} :
    Reaches base root here l ↔ (here = base ∧ l = root) ∨
      ∃ j c, root.children[j]? = some c ∧ Reaches (base ++ [j]) c here l := by
  constructor
  · rintro ⟨a, rfl, hat⟩
    cases a with
    | nil => exact Or.inl ⟨List.append_nil base, (Option.some.inj hat).symm⟩
    | cons j rest =>
      obtain ⟨c, hc, hrest⟩ := Option.bind_eq_some_iff.1 hat
      refine Or.inr ⟨j, c, hc, rest, ?_, hrest⟩
      rw [List.append_assoc, List.singleton_append]
  · rintro (⟨rfl, rfl⟩ | ⟨j, c, hc, a, rfl, hat⟩)
    · exact Reaches.self _ _
    · refine ⟨j :: a, ?_, ?_⟩
      · rw [List.append_assoc, List.singleton_append]
      · rw [at?, hc]
        exact hat

mutual

theorem mem_places (here : Address) :
    ∀ (t : Tree α) (p : Address × Tree α), p ∈ places here t ↔ Reaches here t p.1 p.2
  | node a cs => by
    intro p
    have hbelow := mem_placesFrom here 0 cs p
    simp only [Nat.zero_add] at hbelow
    rw [places, List.mem_cons, reaches_iff, hbelow, Prod.ext_iff]
    rfl

theorem mem_placesFrom (here : Address) (i : Nat) :
    ∀ (ts : List (Tree α)) (p : Address × Tree α), p ∈ placesFrom here i ts ↔
      ∃ j c, ts[j]? = some c ∧ Reaches (here ++ [i + j]) c p.1 p.2
  | [] => by
    intro p
    simp [placesFrom]
  | t :: ts => by
    intro p
    rw [placesFrom, List.mem_append, mem_places (here ++ [i]) t p,
      mem_placesFrom here (i + 1) ts p]
    constructor
    · rintro (hfirst | ⟨j, c, hc, hrest⟩)
      · exact ⟨0, t, rfl, hfirst⟩
      · exact ⟨j + 1, c, hc, by rwa [Nat.add_comm j 1, ← Nat.add_assoc]⟩
    · rintro ⟨j, c, hc, hp⟩
      cases j with
      | zero =>
        rw [← Option.some.inj hc] at hp
        exact Or.inl hp
      | succ j => exact Or.inr ⟨j, c, hc, by rwa [Nat.add_comm j 1, ← Nat.add_assoc] at hp⟩

end

/-- The addresses below children are told apart by the index of the child. -/
theorem exists_of_mem_placesFrom {here : Address} {i : Nat} {ts : List (Tree α)}
    {p : Address × Tree α} (hp : p ∈ placesFrom here i ts) :
    ∃ j rest, i ≤ j ∧ p.1 = here ++ j :: rest := by
  obtain ⟨j, c, -, a, ha, -⟩ := (mem_placesFrom here i ts p).1 hp
  refine ⟨i + j, a, Nat.le_add_right i j, ?_⟩
  rw [ha, List.append_assoc, List.singleton_append]

mutual

theorem nodup_places (here : Address) :
    ∀ t : Tree α, ((places here t).map Prod.fst).Nodup
  | node a cs => by
    rw [places, List.map_cons, List.nodup_cons]
    refine ⟨fun hmem => ?_, nodup_placesFrom here 0 cs⟩
    obtain ⟨p, hp, heq⟩ := List.mem_map.1 hmem
    obtain ⟨j, rest, -, hfst⟩ := exists_of_mem_placesFrom hp
    exact List.cons_ne_nil j rest (List.self_eq_append_right.1 (heq.symm.trans hfst))

theorem nodup_placesFrom (here : Address) (i : Nat) :
    ∀ ts : List (Tree α), ((placesFrom here i ts).map Prod.fst).Nodup
  | [] => List.nodup_nil
  | t :: ts => by
    rw [placesFrom, List.map_append]
    refine (nodup_places (here ++ [i]) t).append (nodup_placesFrom here (i + 1) ts) ?_
    intro a hfirst hrest
    obtain ⟨p, hp, rfl⟩ := List.mem_map.1 hfirst
    obtain ⟨q, hq, heq⟩ := List.mem_map.1 hrest
    obtain ⟨b, hb, -⟩ := (mem_places (here ++ [i]) t p).1 hp
    obtain ⟨j, rest, hj, hfst⟩ := exists_of_mem_placesFrom hq
    rw [heq, hb, List.append_assoc, List.append_cancel_left_eq, List.singleton_append,
      List.cons.injEq] at hfst
    omega

end

mutual

theorem map_snd_places (here : Address) : ∀ t : Tree α, (places here t).map Prod.snd = t.subtrees
  | node a cs => by rw [places, List.map_cons, map_snd_placesFrom here 0 cs, subtrees]

theorem map_snd_placesFrom (here : Address) (i : Nat) :
    ∀ ts : List (Tree α), (placesFrom here i ts).map Prod.snd = subtreesAll ts
  | [] => rfl
  | t :: ts => by
    rw [placesFrom, List.map_append, map_snd_places (here ++ [i]) t,
      map_snd_placesFrom here (i + 1) ts, subtreesAll]

end

theorem mem_subtrees_iff (here : Address) {t s : Tree α} :
    s ∈ t.subtrees ↔ ∃ a, Reaches here t a s := by
  rw [← map_snd_places here t, List.mem_map]
  constructor
  · rintro ⟨p, hp, rfl⟩
    exact ⟨p.1, (mem_places here t p).1 hp⟩
  · rintro ⟨a, ha⟩
    exact ⟨(a, s), (mem_places here t (a, s)).2 ha, rfl⟩

/-- An address leads on from a subtree to where it leads from the root. -/
theorem Reaches.trans {base here below : Address} {root l c : Tree α}
    (h : Reaches base root here l) (h' : Reaches here l below c) : Reaches base root below c := by
  obtain ⟨a, rfl, hat⟩ := h
  obtain ⟨b, rfl, hbt⟩ := h'
  exact ⟨a ++ b, List.append_assoc base a b, by rw [at?_append, hat]; exact hbt⟩

theorem ReachesBelow.trans {base here below : Address} {root l c : Tree α}
    (h : ReachesBelow base root here l) (h' : Reaches here l below c) :
    ReachesBelow base root below c := by
  obtain ⟨a, hne, rfl, hat⟩ := h
  obtain ⟨b, rfl, hbt⟩ := h'
  exact ⟨a ++ b, List.append_ne_nil_of_left_ne_nil hne b, List.append_assoc base a b,
    by rw [at?_append, hat]; exact hbt⟩

theorem Reaches.isPrefix {base here : Address} {root l : Tree α} (h : Reaches base root here l) :
    base <+: here := by
  obtain ⟨a, rfl, -⟩ := h
  exact List.prefix_append base a

/-- What lies at an address below that of a subtree lies in the subtree. -/
theorem Reaches.of_prefix {base here below : Address} {root l c : Tree α}
    (h : Reaches base root here l) (hbelow : here <+: below) (hc : Reaches base root below c) :
    Reaches here l below c := by
  obtain ⟨a, rfl, hat⟩ := h
  obtain ⟨b, rfl⟩ := hbelow
  obtain ⟨d, hd, hdt⟩ := hc
  rw [List.append_assoc, List.append_cancel_left_eq] at hd
  rw [← hd, at?_append, hat] at hdt
  exact ⟨b, rfl, hdt⟩

end Tree

open FormulaMap.Tree (Reaches ReachesBelow places placesFrom)

/-! ## Groups -/

namespace Layout

mutual

theorem selectBelow_sublist (outer inner : String) (inside : Bool) (here : Address) :
    ∀ l : Layout α,
      (selectBelow outer inner inside here l).Sublist (placesFrom here 0 l.children)
  | .node e cs => by
    rw [selectBelow]
    exact selectAmong_sublist outer inner _ here 0 cs

/-- Elements are selected in document order, each of them once. -/
theorem selectAmong_sublist (outer inner : String) (inside : Bool) (here : Address) (i : Nat) :
    ∀ ts : List (Layout α),
      (selectAmong outer inner inside here i ts).Sublist (placesFrom here i ts)
  | [] => by
    rw [selectAmong, placesFrom]
  | t :: ts => by
    have hbelow := selectBelow_sublist outer inner inside (here ++ [i]) t
    rw [selectAmong, placesFrom, Tree.places_eq]
    refine .append ?_ (selectAmong_sublist outer inner inside here (i + 1) ts)
    split
    · exact hbelow.cons_cons _
    · exact hbelow.cons _

end

/-- The groups that a map is made from, with their addresses. -/
def groups (container : Address) (layout : Layout α) : List (Address × Layout α) :=
  layout.select SurfaceMap.formulaClass SurfaceMap.groupClass container

theorem groups_sublist (container : Address) (layout : Layout α) :
    (layout.groups container).Sublist (layout.places container) := by
  rw [Tree.places_eq]
  exact (selectBelow_sublist _ _ false container layout).cons _

theorem nodup_groups (container : Address) (layout : Layout α) :
    ((layout.groups container).map Prod.fst).Nodup :=
  ((groups_sublist container layout).map Prod.fst).nodup (Tree.nodup_places container layout)

theorem reachesBelow_of_mem_groups {container : Address} {layout : Layout α}
    {g : Address × Layout α} (hg : g ∈ layout.groups container) :
    ReachesBelow container layout g.1 g.2 :=
  reaches_selectBelow _ _ false container layout (Reaches.self container layout) g hg

/-- The elements that the walk visits: for every group, those that lie in it. -/
def visits (container : Address) (layout : Layout α) : List (Address × Layout α) :=
  (layout.groups container).flatMap fun g => g.2.places g.1

/-- The groups that an element lies in, by their addresses. -/
def groupsAround (container : Address) (layout : Layout α) (a : Address) :
    List (Address × Layout α) :=
  (layout.groups container).filter fun g => g.1.isPrefixOf a

/-- Of the items of a list with different keys, one has the key of a member. -/
theorem filter_key {β : Type} {ps : List (Address × β)} (hkeys : (ps.map Prod.fst).Nodup)
    {p : Address × β} (hp : p ∈ ps) : ps.filter (fun q => q.1 == p.1) = [p] := by
  induction ps with
  | nil => exact absurd hp List.not_mem_nil
  | cons q ps ih =>
    rw [List.map_cons, List.nodup_cons] at hkeys
    rcases List.mem_cons.1 hp with rfl | hp
    · have hrest : ps.filter (fun q => q.1 == p.1) = [] := List.filter_eq_nil_iff.2
        fun q hq heq => hkeys.1 (beq_iff_eq.1 heq ▸ List.mem_map_of_mem hq)
      rw [List.filter_cons, if_pos (beq_self_eq_true p.1), hrest]
    · have hne : ¬(q.1 == p.1) = true :=
        fun heq => hkeys.1 (beq_iff_eq.1 heq ▸ List.mem_map_of_mem hp)
      rw [List.filter_cons, if_neg hne, ih hkeys.2 hp]

/-- An element is visited once in a group if it lies in it, and else not at all. -/
theorem filter_places {here a : Address} {l s : Layout α}
    (hs : here <+: a → Reaches here l a s) :
    (l.places here).filter (fun p => p.1 == a) = if here.isPrefixOf a then [(a, s)] else [] := by
  split
  · next hpre =>
    exact filter_key (Tree.nodup_places here l)
      ((Tree.mem_places here l (a, s)).2 (hs (List.isPrefixOf_iff_prefix.1 hpre)))
  · next hpre =>
    rw [List.filter_eq_nil_iff]
    intro p hp heq
    obtain ⟨b, hb, -⟩ := (Tree.mem_places here l p).1 hp
    rw [← beq_iff_eq.1 heq, hb] at hpre
    exact hpre (List.isPrefixOf_iff_prefix.2 (List.prefix_append here b))

theorem flatMap_filter {ι β : Type} (test : ι → Bool) (f : ι → List β) (is : List ι) :
    (is.filter test).flatMap f = is.flatMap fun i => if test i then f i else [] := by
  induction is with
  | nil => rfl
  | cons i is ih =>
    rw [List.flatMap_cons, ← ih, List.filter_cons]
    cases test i <;> rfl

/-- An element is visited once for every group that it lies in. -/
theorem filter_visits {container a : Address} {layout s : Layout α}
    (hs : Reaches container layout a s) :
    (layout.visits container).filter (fun p => p.1 == a) =
      List.replicate (layout.groupsAround container a).length (a, s) := by
  have hgroup : ∀ g ∈ layout.groups container, (g.2.places g.1).filter (fun p => p.1 == a) =
      if g.1.isPrefixOf a then [(a, s)] else [] := fun g hg =>
    filter_places fun hpre => (reachesBelow_of_mem_groups hg).reaches.of_prefix hpre hs
  rw [visits, List.filter_flatMap, List.flatMap_congr hgroup, ← flatMap_filter, groupsAround,
    ← List.map_eq_flatMap, List.map_const']

/-! ### Groups apart from each other -/

mutual

theorem selectBelow_eq_nil (outer inner : String) (inside : Bool) (here : Address) :
    ∀ l : Layout α, (∀ e ∈ Tree.preorderAll l.children, e.hasClass inner = false) →
      selectBelow outer inner inside here l = []
  | .node e cs => by
    intro h
    rw [selectBelow]
    exact selectAmong_eq_nil outer inner _ here 0 cs h

theorem selectAmong_eq_nil (outer inner : String) (inside : Bool) (here : Address) (i : Nat) :
    ∀ ts : List (Layout α), (∀ e ∈ Tree.preorderAll ts, e.hasClass inner = false) →
      selectAmong outer inner inside here i ts = []
  | [] => by
    intro _
    rw [selectAmong]
  | .node e cs :: ts => by
    intro h
    rw [Tree.preorderAll, Tree.preorder] at h
    have hfirst : (Tree.node e cs).value.hasClass inner = false :=
      h e (List.mem_append_left _ List.mem_cons_self)
    rw [selectAmong, hfirst, Bool.and_false, if_neg Bool.false_ne_true,
      selectBelow_eq_nil outer inner inside (here ++ [i]) (.node e cs)
        fun f hf => h f (List.mem_append_left _ (List.mem_cons_of_mem e hf)),
      selectAmong_eq_nil outer inner inside here (i + 1) ts
        fun f hf => h f (List.mem_append_right _ hf)]
    rfl

end

mutual

theorem places_selectBelow_sublist (outer inner : String) (inside : Bool) (here : Address) :
    ∀ l : Layout α, (∀ g ∈ selectBelow outer inner inside here l,
        ∀ e ∈ Tree.preorderAll g.2.children, e.hasClass inner = false) →
      ((selectBelow outer inner inside here l).flatMap fun g => g.2.places g.1).Sublist
        (placesFrom here 0 l.children)
  | .node e cs => by
    intro h
    rw [selectBelow] at h ⊢
    exact places_selectAmong_sublist outer inner _ here 0 cs h

/-- A selected element is gone through as a whole, and so is not entered for what is
selected below it if that is nothing. -/
theorem places_selectAmong_sublist (outer inner : String) (inside : Bool) (here : Address)
    (i : Nat) :
    ∀ ts : List (Layout α), (∀ g ∈ selectAmong outer inner inside here i ts,
        ∀ e ∈ Tree.preorderAll g.2.children, e.hasClass inner = false) →
      ((selectAmong outer inner inside here i ts).flatMap fun g => g.2.places g.1).Sublist
        (placesFrom here i ts)
  | [] => by
    intro _
    rw [selectAmong, placesFrom]
    exact List.Sublist.refl _
  | t :: ts => by
    intro h
    rw [selectAmong] at h ⊢
    have hrest := places_selectAmong_sublist outer inner inside here (i + 1) ts
      fun g hg => h g (List.mem_append_right _ hg)
    rw [placesFrom, List.flatMap_append, List.flatMap_append]
    refine .append ?_ hrest
    by_cases hselected : (inside && t.value.hasClass inner) = true
    · rw [if_pos hselected] at h ⊢
      have hnone : selectBelow outer inner inside (here ++ [i]) t = [] :=
        selectBelow_eq_nil outer inner inside (here ++ [i]) t
          (h (here ++ [i], t) List.mem_cons_self)
      rw [hnone, List.flatMap_nil, List.append_nil, List.flatMap_singleton]
    · rw [if_neg hselected] at h ⊢
      have hbelow := places_selectBelow_sublist outer inner inside (here ++ [i]) t
        fun g hg => h g (List.mem_append_left _ hg)
      rw [List.flatMap_nil, List.nil_append, Tree.places_eq]
      exact hbelow.cons _

end

/-- No element in a group is of the class of groups. -/
def GroupsApart (container : Address) (layout : Layout α) : Prop :=
  ∀ g ∈ layout.groups container, ∀ e ∈ Tree.preorderAll g.2.children,
    e.hasClass SurfaceMap.groupClass = false

instance (container : Address) (layout : Layout α) : Decidable (GroupsApart container layout) :=
  inferInstanceAs (Decidable (∀ g ∈ layout.groups container, ∀ e ∈ Tree.preorderAll g.2.children, _))

/-- Elements are visited in document order, each of them once, if no group lies in
another. -/
theorem visits_sublist {container : Address} {layout : Layout α}
    (h : layout.GroupsApart container) :
    (layout.visits container).Sublist (layout.places container) := by
  rw [Tree.places_eq]
  exact (places_selectBelow_sublist _ _ false container layout h).cons _

/-- Whether the element at an address lies in a group. -/
def inGroup (container : Address) (layout : Layout α) (a : Address) : Bool :=
  (layout.groups container).any fun g => g.1.isPrefixOf a

theorem mem_visits_iff {container : Address} {layout : Layout α} {p : Address × Layout α}
    (hp : p ∈ layout.places container) :
    p ∈ layout.visits container ↔ layout.inGroup container p.1 = true := by
  rw [visits, inGroup, List.mem_flatMap, List.any_eq_true]
  constructor
  · rintro ⟨g, hg, hp⟩
    exact ⟨g, hg, List.isPrefixOf_iff_prefix.2 ((Tree.mem_places g.1 g.2 p).1 hp).isPrefix⟩
  · rintro ⟨g, hg, hpre⟩
    have hreaches := (Tree.mem_places container layout p).1 hp
    exact ⟨g, hg, (Tree.mem_places g.1 g.2 p).2
      ((reachesBelow_of_mem_groups hg).reaches.of_prefix (List.isPrefixOf_iff_prefix.1 hpre)
        hreaches)⟩

/-- The visited elements are those that lie in groups. -/
theorem visits_eq_filter {container : Address} {layout : Layout α}
    (h : layout.GroupsApart container) :
    layout.visits container =
      (layout.places container).filter fun p => layout.inGroup container p.1 := by
  have hsublist := visits_sublist h
  have hnodup : (layout.places container).Nodup :=
    .of_map Prod.fst (Tree.nodup_places container layout)
  have hself : (layout.visits container).filter (fun p => layout.inGroup container p.1) =
      layout.visits container :=
    List.filter_eq_self.2 fun p hp => (mem_visits_iff (hsublist.subset hp)).1 hp
  have hfilter := hsublist.filter fun p => layout.inGroup container p.1
  rw [hself] at hfilter
  refine hfilter.eq_of_length_le ((hnodup.filter _).subperm fun p hp => ?_).length_le
  exact (mem_visits_iff (List.mem_filter.1 hp).1).2 (List.mem_filter.1 hp).2

end Layout

/-! ## Drafts -/

/-- What is drafted of an element at an address: nothing, one node for the whole element,
or one node for every segment of its text. -/
inductive Drafted (here : Address) (l : Layout α) : List (Draft α) → Prop
  | nothing : Drafted here l []
  | whole (d : Draft α) (hsource : d.source = here) (hsynthetic : d.synthetic = false) :
      Drafted here l [d]
  | segments (ds : List (Draft α)) (hsource : ∀ d ∈ ds, d.source = here)
      (hsynthetic : ∀ d ∈ ds, d.synthetic = true)
      (htexts : ds.map (·.text) = (Segment.ofString (Text.trim l.content)).map (·.text)) :
      Drafted here l ds

theorem Drafted.source_eq {here : Address} {l : Layout α} {ds : List (Draft α)}
    (h : Drafted here l ds) : ∀ d ∈ ds, d.source = here := by
  cases h with
  | nothing => exact fun d hd => absurd hd List.not_mem_nil
  | whole d hsource _ => exact fun d' hd' => (List.mem_singleton.1 hd') ▸ hsource
  | segments _ hsource _ _ => exact hsource

namespace SurfaceMap

variable [Coordinate α]

/-- The drafts of an element without what is in it. -/
def ownDrafts (t : Tolerances α) (origin : Box α) (here : Address) : Layout α → List (Draft α)
  | .node e ts =>
    let text := Text.trimChars (Layout.content (.node e ts)).toList
    let box := e.box.relativeTo origin
    if Category.isStructural e.classes then []
    else if Category.isMixedContent text then
      match ts with
      | [] => (segmentDrafts here box text).map Tree.value
      | _ :: _ => []
    else
      let category := Category.of e.classes (String.ofList text)
      if category.kind = .other && (text.isEmpty || !isVisible t box) then []
      else [⟨category, box, here, String.ofList text, false⟩]

theorem segmentDrafts_eq (here : Address) (box : Box α) (text : List Char) :
    segmentDrafts here box text =
      ((segmentDrafts here box text).map Tree.value).map fun d => .node d [] := by
  unfold segmentDrafts
  dsimp only
  rw [List.map_map, List.map_map]
  rfl

theorem preorderAll_segmentDrafts (here : Address) (box : Box α) (text : List Char) :
    Tree.preorderAll (segmentDrafts here box text) =
      (segmentDrafts here box text).map Tree.value := by
  conv_lhs => rw [segmentDrafts_eq]
  exact Tree.preorderAll_leafs _

mutual

/-- The drafts of an element are its own, and then those of its children. -/
theorem preorderAll_walk (t : Tolerances α) (origin : Box α) (here : Address) :
    ∀ l : Layout α, Tree.preorderAll (walk t origin here l) =
      (l.places here).flatMap fun p => ownDrafts t origin p.1 p.2
  | .node e ts => by
    have hall := preorderAll_walkAll t origin here 0 ts
    rw [walk.eq_def, places, List.flatMap_cons, ← hall, ownDrafts.eq_def]
    dsimp only
    split
    · rfl
    · split
      · cases ts with
        | nil => rw [preorderAll_segmentDrafts, walkAll, Tree.preorderAll, List.append_nil]
        | cons u us => rfl
      · split
        · rfl
        · rw [Tree.preorderAll, Tree.preorder, Tree.preorderAll, List.append_nil]
          rfl

theorem preorderAll_walkAll (t : Tolerances α) (origin : Box α) (here : Address) (i : Nat) :
    ∀ ls : List (Layout α), Tree.preorderAll (walkAll t origin here i ls) =
      (placesFrom here i ls).flatMap fun p => ownDrafts t origin p.1 p.2
  | [] => by
    rw [walkAll, placesFrom]
    rfl
  | l :: ls => by
    rw [walkAll, placesFrom, Tree.preorderAll_append, List.flatMap_append,
      preorderAll_walk t origin (here ++ [i]) l, preorderAll_walkAll t origin here (i + 1) ls]

end

/-- The forest that a map is placed from. -/
def drafts (t : Tolerances α) (container : Address) (layout : Layout α) : List (Tree (Draft α)) :=
  (layout.groups container).flatMap fun g => walk t layout.value.box g.1 g.2

theorem nodes_tail_build (t : Tolerances α) (container : Address) (layout : Layout α) :
    (build t container layout).nodes.tail =
      Tree.preorderAll (Draft.placeAll [0] 1 (drafts t container layout)) := rfl

theorem preorderAll_drafts (t : Tolerances α) (container : Address) (layout : Layout α) :
    Tree.preorderAll (drafts t container layout) =
      (layout.visits container).flatMap fun p => ownDrafts t layout.value.box p.1 p.2 := by
  rw [drafts, Layout.visits]
  induction layout.groups container with
  | nil => rfl
  | cons g gs ih =>
    rw [List.flatMap_cons, List.flatMap_cons, Tree.preorderAll_append, List.flatMap_append, ih,
      preorderAll_walk]

theorem texts_segmentDrafts (here : Address) (box : Box α) (text : List Char) :
    ((segmentDrafts here box text).map Tree.value).map (·.text) =
      (Segment.scan text).map (·.text) := by
  unfold segmentDrafts
  dsimp only
  rw [List.map_map, List.map_map]
  conv_rhs => rw [← List.zipIdx_map_fst 0 (Segment.scan text), List.map_map]
  rfl

theorem drafted_segmentDrafts (here : Address) (l : Layout α) (box : Box α) :
    Drafted here l ((segmentDrafts here box (Text.trimChars l.content.toList)).map Tree.value) := by
  have hmade : ∀ d ∈ (segmentDrafts here box (Text.trimChars l.content.toList)).map Tree.value,
      d.source = here ∧ d.synthetic = true := by
    intro d hd
    obtain ⟨s, hs, rfl⟩ := List.mem_map.1 hd
    obtain ⟨p, -, rfl⟩ := List.mem_map.1 hs
    exact ⟨rfl, rfl⟩
  refine .segments _ (fun d hd => (hmade d hd).1) (fun d hd => (hmade d hd).2) ?_
  rw [texts_segmentDrafts, Segment.ofString, Text.trim, String.toList_ofList]

theorem drafted_ownDrafts (t : Tolerances α) (origin : Box α) (here : Address) (l : Layout α) :
    Drafted here l (ownDrafts t origin here l) := by
  cases l with
  | node e ts =>
    rw [ownDrafts.eq_def]
    dsimp only
    split
    · exact .nothing
    · split
      · cases ts with
        | nil => exact drafted_segmentDrafts here _ _
        | cons u us => exact .nothing
      · split
        · exact .nothing
        · exact .whole _ rfl rfl

/-- The drafts that come from an element are its own ones, once for every group that it
lies in. -/
theorem filter_drafts (t : Tolerances α) {container a : Address} {layout s : Layout α}
    (hs : Reaches container layout a s) :
    (Tree.preorderAll (drafts t container layout)).filter (fun d => d.source == a) =
      (List.replicate (layout.groupsAround container a).length
        (ownDrafts t layout.value.box a s)).flatten := by
  have hown : ∀ p ∈ layout.visits container,
      (ownDrafts t layout.value.box p.1 p.2).filter (fun d => d.source == a) =
        if p.1 == a then ownDrafts t layout.value.box p.1 p.2 else [] := by
    intro p _
    have hsource := (drafted_ownDrafts t layout.value.box p.1 p.2).source_eq
    split
    · next heq =>
      exact List.filter_eq_self.2 fun d hd => by rw [hsource d hd]; exact heq
    · next hne =>
      exact List.filter_eq_nil_iff.2 fun d hd => by rw [hsource d hd]; exact hne
  rw [preorderAll_drafts, List.filter_flatMap, List.flatMap_congr hown,
    ← Layout.flatMap_filter (fun p : Address × Layout α => p.1 == a), Layout.filter_visits hs,
    List.flatMap_replicate]

end SurfaceMap
end FormulaMap

/-
Sorting by a test that ranks its items.

A test ranks items when no two are less than each other and being no less is passed on.
Then `sortBy` puts every item behind those it is not less than (`ascends_sortBy`), and it
is stable: items that stand in order before the sort stand in the same order after it,
ties included (`sublist_sortBy`).  So a list in order is left alone.

Both facts are shown for one insertion and carried through the fold.  An insertion into
a list in order is understood from where the list changes from items that the new one is
not less than to items that it is less than (`insertBy_append`); halving only finds the
place.

A test need not rank all items there are, as long as it ranks those of the list: what is
sorted is then the list of the items with the proofs that they are in it (`sortBy_attach`).
-/
import FormulaMap.Order
import Mathlib.Data.List.Basic
import Mathlib.Data.List.Induction
import Mathlib.Data.List.Nodup

namespace FormulaMap

variable {α β : Type}

/-- What sorting asks of a test. -/
structure Ranks (less : α → α → Bool) : Prop where
  asymm : ∀ {a b}, less a b = true → less b a = false
  trans : ∀ {a b c}, less b a = false → less c b = false → less c a = false

theorem Ranks.flip {less : α → α → Bool} (h : Ranks less) : Ranks fun a b => less b a where
  asymm := h.asymm
  trans hab hbc := h.trans hbc hab

/-- No item is less than one that stands before it. -/
def Ascends (less : α → α → Bool) (xs : List α) : Prop :=
  xs.Pairwise fun a b => less b a = false

/-! ## Inserting -/

section
variable {less : α → α → Bool} {x : α}

theorem insertBy_append {before after : List α} (hbefore : ∀ b ∈ before, less x b = false)
    (hafter : ∀ a ∈ after, less x a = true) :
    insertBy less x (before ++ after) = before ++ x :: after := by
  generalize hys : before ++ after = ys
  fun_induction insertBy less x ys generalizing before after with
  | case1 ys h =>
    have hlen := congrArg List.length h
    simp only [List.length_drop, List.length_nil] at hlen
    have hnil : ys = [] := List.length_eq_zero_iff.1 (by omega)
    rw [hnil, List.append_eq_nil_iff] at hys
    rw [hys.1, hys.2]
    rfl
  | case2 ys y rest h hless ih =>
    -- the item in the middle belongs to the back, so the front holds all of `before`
    have hsplit : ys.take (ys.length / 2) ++ y :: rest = ys := by
      rw [← h]
      exact List.take_append_drop _ _
    rw [← hsplit, List.append_eq_append_iff] at hys
    rcases hys with ⟨as, hfront, hback⟩ | ⟨bs, hfront, hback⟩
    · rw [ih hbefore (fun a ha => hafter a (hback ▸ List.mem_append_left _ ha)) hfront.symm, hback,
        List.append_assoc]
      rfl
    · cases bs with
      | nil =>
        rw [List.append_nil] at hfront
        rw [ih hbefore (List.forall_mem_nil _) (by rw [List.append_nil, hfront]),
          ← (show y :: rest = after from hback), List.append_assoc]
        rfl
      | cons b bs =>
        rw [List.cons_append, List.cons.injEq] at hback
        have hy := hbefore y (by rw [hfront, hback.1]; simp)
        rw [hless] at hy
        exact absurd hy (by decide)
  | case3 ys y rest h hless ih =>
    have hsplit : ys.take (ys.length / 2) ++ y :: rest = ys := by
      rw [← h]
      exact List.take_append_drop _ _
    rw [← hsplit, List.append_eq_append_iff] at hys
    rcases hys with ⟨as, hfront, hback⟩ | ⟨bs, hfront, hback⟩
    · exact absurd (hafter y (by rw [hback]; simp)) hless
    · cases bs with
      | nil => exact absurd (hafter y (by rw [← (show y :: rest = after from hback)]; simp)) hless
      | cons b bs =>
        rw [List.cons_append, List.cons.injEq] at hback
        have hbs : ∀ c ∈ bs, less x c = false :=
          fun c hc => hbefore c (by rw [hfront]; simp [hc])
        rw [ih hbs hafter hback.2.symm, hfront, List.append_assoc, List.cons_append, ← hback.1]

/-- In a list in order, the items that `x` is not less than come first. -/
theorem exists_split (h : Ranks less) {ys : List α} (hys : Ascends less ys) (x : α) :
    ∃ before after, ys = before ++ after ∧ (∀ b ∈ before, less x b = false) ∧
      ∀ a ∈ after, less x a = true := by
  induction ys with
  | nil => exact ⟨[], [], rfl, by simp, by simp⟩
  | cons y ys ih =>
    obtain ⟨hy, hrest⟩ := List.pairwise_cons.1 hys
    cases hxy : less x y with
    | true =>
      refine ⟨[], y :: ys, rfl, by simp, ?_⟩
      intro a ha
      rcases List.mem_cons.1 ha with rfl | ha
      · exact hxy
      · refine eq_true_of_ne_false fun hxa => ?_
        rw [h.trans (hy a ha) hxa] at hxy
        exact absurd hxy (by decide)
    | false =>
      obtain ⟨before, after, rfl, hbefore, hafter⟩ := ih hrest
      refine ⟨y :: before, after, rfl, ?_, hafter⟩
      intro b hb
      rcases List.mem_cons.1 hb with rfl | hb
      · exact hxy
      · exact hbefore b hb

theorem ascends_insertBy (h : Ranks less) {ys : List α} (hys : Ascends less ys) (x : α) :
    Ascends less (insertBy less x ys) := by
  obtain ⟨before, after, rfl, hbefore, hafter⟩ := exists_split h hys x
  rw [insertBy_append hbefore hafter]
  obtain ⟨h₁, h₂, h₃⟩ := List.pairwise_append.1 hys
  refine List.pairwise_append.2 ⟨h₁, List.pairwise_cons.2 ⟨?_, h₂⟩, ?_⟩
  · exact fun a ha => h.asymm (hafter a ha)
  · intro b hb a ha
    rcases List.mem_cons.1 ha with rfl | ha
    · exact hbefore b hb
    · exact h₃ b hb a ha

/-- Items in order, of which only the last may be the new one, keep their order. -/
theorem sublist_insertBy (h : Ranks less) {ys c : List α} (hys : Ascends less ys) {x : α}
    (hc : c.Sublist ys) (hx : ∀ a ∈ c, less x a = false) :
    (c ++ [x]).Sublist (insertBy less x ys) := by
  obtain ⟨before, after, rfl, hbefore, hafter⟩ := exists_split h hys x
  rw [insertBy_append hbefore hafter]
  have hback : after.filter (fun a => !less x a) = [] :=
    List.filter_eq_nil_iff.2 fun a ha => by simp [hafter a ha]
  have hfront : c.Sublist before := by
    have hfilter := hc.filter fun a => !less x a
    rw [List.filter_append, hback, List.append_nil,
      List.filter_eq_self.2 (fun a ha => by simp [hx a ha])] at hfilter
    exact hfilter.trans List.filter_sublist
  exact hfront.append (List.cons_sublist_cons.2 (List.nil_sublist after))

theorem sublist_insertBy_self (h : Ranks less) {ys : List α} (hys : Ascends less ys) (x : α) :
    ys.Sublist (insertBy less x ys) := by
  obtain ⟨before, after, rfl, hbefore, hafter⟩ := exists_split h hys x
  rw [insertBy_append hbefore hafter]
  exact (List.Sublist.refl before).append (List.sublist_cons_self x after)

/-! ## Inserting one after another -/

theorem ascends_foldl (h : Ranks less) (rest : List α) {run : List α} (hrun : Ascends less run) :
    Ascends less (rest.foldl (fun sorted x => insertBy less x sorted) run) := by
  induction rest generalizing run with
  | nil => exact hrun
  | cons x rest ih => exact ih (ascends_insertBy h hrun x)

theorem sublist_foldl (h : Ranks less) (rest : List α) {run c : List α} (hrun : Ascends less run)
    (hc : c.Sublist (run ++ rest)) (horder : Ascends less c) :
    c.Sublist (rest.foldl (fun sorted x => insertBy less x sorted) run) := by
  induction rest generalizing run with
  | nil => rwa [List.append_nil] at hc
  | cons x rest ih =>
    refine ih (ascends_insertBy h hrun x) ?_
    obtain ⟨front, back, rfl, hfront, hback⟩ := List.sublist_append_iff.1 hc
    cases hback with
    | cons _ hback => exact (hfront.trans (sublist_insertBy_self h hrun x)).append hback
    | cons_cons _ hback =>
      have hx := (List.pairwise_append.1 horder).2.2
      have hplaced := sublist_insertBy h hrun hfront fun a ha => hx a ha x List.mem_cons_self
      have happend := hplaced.append hback
      rwa [List.append_assoc] at happend

/-! ## The run at the front -/

theorem runFrom_eq_cons (mayFollow : α → α → Bool) (x : α) (ys : List α) :
    ∃ run, (runFrom mayFollow x ys).1 = x :: run := by
  cases ys with
  | nil => exact ⟨[], rfl⟩
  | cons y ys =>
    rw [runFrom]
    split
    · exact ⟨_, rfl⟩
    · exact ⟨_, rfl⟩

theorem pairwise_runFrom (mayFollow : α → α → Bool)
    (htrans : ∀ {a b c}, mayFollow a b = true → mayFollow b c = true → mayFollow a c = true)
    (x : α) (ys : List α) :
    (runFrom mayFollow x ys).1.Pairwise fun a b => mayFollow a b = true := by
  induction ys generalizing x with
  | nil => exact List.pairwise_singleton _ x
  | cons y ys ih =>
    rw [runFrom]
    split
    · next hxy =>
      obtain ⟨run, hrun⟩ := runFrom_eq_cons mayFollow y ys
      have hy := ih y
      refine List.pairwise_cons.2 ⟨?_, hy⟩
      rw [hrun] at hy ⊢
      intro z hz
      rcases List.mem_cons.1 hz with rfl | hz
      · exact hxy
      · exact htrans hxy ((List.pairwise_cons.1 hy).1 z hz)
    · exact List.pairwise_singleton _ x

theorem Ranks.less_trans (h : Ranks less) {a b c : α} (hab : less b a = true)
    (hbc : less c b = true) : less c a = true := by
  refine eq_true_of_ne_false fun hca => ?_
  rw [h.trans hca (h.asymm hbc)] at hab
  exact absurd hab (by decide)

theorem ascends_firstRun (h : Ranks less) (xs : List α) : Ascends less (firstRun less xs).1 := by
  match xs with
  | [] => exact List.Pairwise.nil
  | [x] => exact List.pairwise_singleton _ x
  | x :: y :: ys =>
    rw [firstRun]
    split
    · have hrun := pairwise_runFrom (fun a b => less b a) h.less_trans x (y :: ys)
      exact List.pairwise_reverse.2 (hrun.imp fun hab => h.asymm hab)
    · have hrun := pairwise_runFrom (fun a b => !less b a)
        (by simpa using fun {a b c} => h.trans (a := a) (b := b) (c := c)) x (y :: ys)
      exact hrun.imp fun hab => by simpa using hab

/-- A descending run is turned round, which changes nothing for items in order: at most
one of them is in it. -/
theorem sublist_firstRun (h : Ranks less) {xs c : List α} (hc : c.Sublist xs)
    (horder : Ascends less c) : c.Sublist ((firstRun less xs).1 ++ (firstRun less xs).2) := by
  match xs with
  | [] => exact hc
  | [x] => exact hc
  | x :: y :: ys =>
    rw [firstRun]
    split
    · have hrun := pairwise_runFrom (fun a b => less b a) h.less_trans x (y :: ys)
      have happend := runFrom_append (fun a b => less b a) x (y :: ys)
      rw [← happend, List.sublist_append_iff] at hc
      obtain ⟨front, back, rfl, hfront, hback⟩ := hc
      refine List.Sublist.append ?_ hback
      rcases front with _ | ⟨a, _ | ⟨b, front⟩⟩
      · exact List.nil_sublist _
      · exact List.singleton_sublist.2 (List.mem_reverse.2 (List.singleton_sublist.1 hfront))
      · have hdescends := (List.pairwise_cons.1 (hrun.sublist hfront)).1 b List.mem_cons_self
        have hascends := (List.pairwise_cons.1 horder).1 b (by simp)
        rw [hdescends] at hascends
        exact absurd hascends (by decide)
    · rw [runFrom_append]
      exact hc

/-! ## Sorting -/

theorem ascends_sortBy (h : Ranks less) (xs : List α) : Ascends less (sortBy less xs) :=
  ascends_foldl h _ (ascends_firstRun h xs)

theorem sublist_sortBy (h : Ranks less) {xs c : List α} (hc : c.Sublist xs)
    (horder : Ascends less c) : c.Sublist (sortBy less xs) :=
  sublist_foldl h _ (ascends_firstRun h xs) (sublist_firstRun h hc horder) horder

theorem sortBy_of_ascends (h : Ranks less) {xs : List α} (hxs : Ascends less xs) :
    sortBy less xs = xs :=
  ((sublist_sortBy h (List.Sublist.refl xs) hxs).eq_of_length (sortBy_perm less xs).length_eq.symm).symm

theorem pair_sublist_or {xs : List α} {a b : α} (ha : a ∈ xs) (hb : b ∈ xs) (hne : a ≠ b) :
    [a, b].Sublist xs ∨ [b, a].Sublist xs := by
  induction xs with
  | nil => exact absurd ha List.not_mem_nil
  | cons x xs ih =>
    rcases List.mem_cons.1 ha with rfl | ha' <;> rcases List.mem_cons.1 hb with rfl | hb'
    · exact absurd rfl hne
    · exact Or.inl ((List.singleton_sublist.2 hb').cons_cons a)
    · exact Or.inr ((List.singleton_sublist.2 ha').cons_cons b)
    · exact (ih ha' hb').imp (List.Sublist.cons x) (List.Sublist.cons x)

theorem not_pair_sublist {xs : List α} (hxs : xs.Nodup) {a b : α} (hab : [a, b].Sublist xs) :
    ¬ [b, a].Sublist xs := by
  intro hba
  induction xs with
  | nil => exact absurd hab (by simp)
  | cons x xs ih =>
    obtain ⟨hx, hrest⟩ := List.nodup_cons.1 hxs
    rcases List.cons_sublist_cons'.1 hab with habxs | ⟨rfl, hb⟩
    · rcases List.cons_sublist_cons'.1 hba with hbaxs | ⟨rfl, -⟩
      · exact ih hrest habxs hbaxs
      · exact hx (habxs.subset (List.mem_cons_of_mem a List.mem_cons_self))
    · rcases List.cons_sublist_cons'.1 hba with hbaxs | ⟨rfl, -⟩
      · exact hx (hbaxs.subset (List.mem_cons_of_mem b List.mem_cons_self))
      · exact hx (List.singleton_sublist.1 hb)

/-- In a list without repetitions the items before one are those that stand before it. -/
theorem pair_sublist_split {before after : List α} {a x : α}
    (h : (before ++ a :: after).Nodup) : [x, a].Sublist (before ++ a :: after) ↔ x ∈ before := by
  constructor
  · intro hpair
    rcases List.mem_append.1 (hpair.subset List.mem_cons_self) with hx | hx
    · exact hx
    · refine absurd ?_ (not_pair_sublist h hpair)
      rcases List.mem_cons.1 hx with rfl | hx
      · exact absurd (h.sublist hpair) (by simp)
      · exact ((List.singleton_sublist.2 hx).cons_cons a).trans (List.sublist_append_right before _)
  · intro hx
    exact (List.singleton_sublist.2 hx).append ((List.nil_sublist after).cons_cons a)

/-- And two of them stand in the same order. -/
theorem pair_sublist_before {before after : List α} {x y : α}
    (h : (before ++ after).Nodup) (hx : x ∈ before) (hy : y ∈ before) :
    [x, y].Sublist (before ++ after) ↔ [x, y].Sublist before := by
  refine ⟨fun hpair => ?_, fun hpair => hpair.trans (List.sublist_append_left before after)⟩
  have hne : x ≠ y := by
    have hnodup := h.sublist hpair
    simpa using hnodup
  refine (pair_sublist_or hx hy hne).resolve_right fun hturned => ?_
  exact not_pair_sublist h hpair (hturned.trans (List.sublist_append_left before after))

/-- The last item that passes a test, when no item comes twice. -/
theorem getLast?_filter_eq_some_iff {p : α → Bool} {xs : List α} (hxs : xs.Nodup)
    {x : α} : (xs.filter p).getLast? = some x ↔
      x ∈ xs ∧ p x = true ∧ ∀ y, [x, y].Sublist xs → p y = false := by
  rw [List.getLast?_filter, List.find?_eq_some_iff_append]
  constructor
  · rintro ⟨hx, after, before, hsplit, hafter⟩
    obtain rfl : xs = before.reverse ++ x :: after.reverse := by
      rw [← List.reverse_reverse xs, hsplit]
      simp
    refine ⟨by simp, hx, fun y hy => ?_⟩
    rcases List.mem_append.1 (hy.subset (by simp : y ∈ [x, y])) with hmem | hmem
    · exact absurd ((pair_sublist_split hxs).2 hmem) (not_pair_sublist hxs hy)
    · rcases List.mem_cons.1 hmem with rfl | hmem
      · exact absurd (hxs.sublist hy) (by simp)
      · simpa using hafter y (List.mem_reverse.1 hmem)
  · rintro ⟨hmem, hx, hlater⟩
    obtain ⟨before, after, rfl⟩ := List.append_of_mem hmem
    refine ⟨hx, after.reverse, before.reverse, by simp, fun y hy => ?_⟩
    have hpair : [x, y].Sublist (before ++ x :: after) :=
      ((List.singleton_sublist.2 (List.mem_reverse.1 hy)).cons_cons x).trans
        (List.sublist_append_right before _)
    rw [hlater y hpair]
    rfl

/-- Ties are left in the order of the list. -/
theorem pairwise_sortBy (h : Ranks less) {xs : List α} (hxs : xs.Nodup) {R : α → α → Prop}
    (hR : xs.Pairwise R) : (sortBy less xs).Pairwise fun a b => less a b = true ∨ R a b := by
  have hperm := sortBy_perm less xs
  refine List.pairwise_iff_forall_sublist.2 fun {a b} hab => ?_
  cases hless : less a b with
  | true => exact Or.inl rfl
  | false =>
    have hne : a ≠ b := by
      have hpair := (hperm.nodup_iff.2 hxs).sublist hab
      simpa using hpair
    have ha := hperm.mem_iff.1 (hab.subset List.mem_cons_self)
    have hb := hperm.mem_iff.1 (hab.subset (List.mem_cons_of_mem a List.mem_cons_self))
    rcases pair_sublist_or ha hb hne with hpair | hpair
    · exact Or.inr (List.pairwise_iff_forall_sublist.1 hR hpair)
    · have hturned := sublist_sortBy h hpair (by simpa [Ascends] using hless)
      exact absurd hturned (not_pair_sublist (hperm.nodup_iff.2 hxs) hab)

end

/-! ## Choosing -/

theorem firstLeast_append (less : α → α → Bool) (xs : List α) (x : α) :
    firstLeast less (xs ++ [x]) = better less (firstLeast less xs) x := by
  rw [firstLeast, List.foldl_append]
  rfl

theorem firstLeast_eq_none_iff {less : α → α → Bool} {xs : List α} :
    firstLeast less xs = none ↔ xs = [] := by
  rcases List.eq_nil_or_concat' xs with rfl | ⟨ys, x, rfl⟩
  · exact ⟨fun _ => rfl, fun _ => rfl⟩
  · rw [firstLeast_append]
    refine ⟨fun h => ?_, fun h => absurd h (by simp)⟩
    cases hbest : firstLeast less ys with
    | none =>
      rw [hbest, better] at h
      exact absurd h (Option.some_ne_none x)
    | some b =>
      rw [hbest, better] at h
      split at h <;> exact absurd h (Option.some_ne_none _)

/-- No item is less than the one that is chosen.  For this the test need not rank the items:
some of them may not be comparable. -/
theorem firstLeast_spec {less : α → α → Bool} (hirrefl : ∀ a, less a a = false)
    (htrans : ∀ {a b c}, less a b = true → less b c = true → less a c = true) {xs : List α} {a : α}
    (ha : firstLeast less xs = some a) : a ∈ xs ∧ ∀ x ∈ xs, less x a = false := by
  induction xs using List.reverseRecOn generalizing a with
  | nil => exact absurd ha (by simp [firstLeast])
  | append_singleton xs x ih =>
    rw [firstLeast_append] at ha
    cases hbest : firstLeast less xs with
    | none =>
      rw [hbest, better, Option.some.injEq] at ha
      subst ha
      rw [firstLeast_eq_none_iff.1 hbest]
      simpa using hirrefl x
    | some b =>
      obtain ⟨hb, hleast⟩ := ih hbest
      rw [hbest, better] at ha
      cases hx : less x b with
      | false =>
        rw [hx, if_neg Bool.false_ne_true, Option.some.injEq] at ha
        subst ha
        refine ⟨List.mem_append_left [x] hb, fun y hy => ?_⟩
        rcases List.mem_append.1 hy with hy | hy
        · exact hleast y hy
        · rwa [List.mem_singleton.1 hy]
      | true =>
        rw [hx, if_pos rfl, Option.some.injEq] at ha
        subst ha
        refine ⟨List.mem_append_right xs List.mem_cons_self, fun y hy => ?_⟩
        rcases List.mem_append.1 hy with hy | hy
        · -- what is less than `x` would be less than the best before it
          refine Bool.eq_false_iff.2 fun hyx => ?_
          have hyb := htrans hyx hx
          rw [hleast y hy] at hyb
          exact Bool.false_ne_true hyb
        · rw [List.mem_singleton.1 hy]
          exact hirrefl x

/-- The item that is chosen is less than all before it, and no item after it is less. -/
theorem exists_split_of_firstLeast {less : α → α → Bool} (h : Ranks less) {xs : List α} {a : α}
    (ha : firstLeast less xs = some a) : ∃ before after, xs = before ++ a :: after ∧
      (∀ x ∈ before, less a x = true) ∧ ∀ x ∈ after, less x a = false := by
  induction xs using List.reverseRecOn generalizing a with
  | nil => exact absurd ha (by simp [firstLeast])
  | append_singleton xs x ih =>
    rw [firstLeast_append] at ha
    cases hbest : firstLeast less xs with
    | none =>
      rw [hbest, better, Option.some.injEq] at ha
      rw [firstLeast_eq_none_iff.1 hbest, ha]
      exact ⟨[], [], rfl, List.forall_mem_nil _, List.forall_mem_nil _⟩
    | some b =>
      obtain ⟨before, after, rfl, hbefore, hafter⟩ := ih hbest
      rw [hbest, better] at ha
      cases hx : less x b with
      | false =>
        rw [hx, if_neg Bool.false_ne_true, Option.some.injEq] at ha
        obtain rfl := ha
        refine ⟨before, after ++ [x], by simp, hbefore, fun y hy => ?_⟩
        rcases List.mem_append.1 hy with hy | hy
        · exact hafter y hy
        · rw [List.mem_singleton.1 hy]
          exact hx
      | true =>
        rw [hx, if_pos rfl, Option.some.injEq] at ha
        obtain rfl := ha
        refine ⟨before ++ b :: after, [], rfl, fun y hy => ?_, List.forall_mem_nil _⟩
        rcases List.mem_append.1 hy with hy | hy
        · exact h.less_trans (hbefore y hy) hx
        · rcases List.mem_cons.1 hy with rfl | hy
          · exact hx
          · refine eq_true_of_ne_false fun hxy => ?_
            rw [h.trans (hafter y hy) hxy] at hx
            exact Bool.false_ne_true hx

/-! ## Sorting by a key -/

theorem insertBy_map (less : β → β → Bool) (f : α → β) (x : α) (ys : List α) :
    insertBy less (f x) (ys.map f) = (insertBy (fun a b => less (f a) (f b)) x ys).map f := by
  have hdrop : ∀ zs : List α, (zs.map f).drop ((zs.map f).length / 2) =
      (zs.drop (zs.length / 2)).map f := by
    intro zs
    rw [List.length_map, List.map_drop]
  fun_induction insertBy (fun a b => less (f a) (f b)) x ys with
  | case1 ys h =>
    rw [insertBy]
    split
    · rfl
    · next heq =>
      rw [hdrop, h] at heq
      exact absurd heq (by simp)
  | case2 ys y rest h hless ih =>
    rw [insertBy]
    split
    · next heq =>
      rw [hdrop, h] at heq
      exact absurd heq (by simp)
    · next heq =>
      rw [hdrop, h, List.map_cons, List.cons.injEq] at heq
      obtain ⟨rfl, rfl⟩ := heq
      rw [if_pos hless, List.length_map, ← List.map_take, ih, List.map_append, List.map_cons]
  | case3 ys y rest h hless ih =>
    rw [insertBy]
    split
    · next heq =>
      rw [hdrop, h] at heq
      exact absurd heq (by simp)
    · next heq =>
      rw [hdrop, h, List.map_cons, List.cons.injEq] at heq
      obtain ⟨rfl, rfl⟩ := heq
      rw [if_neg hless, List.length_map, ← List.map_take, ih, List.map_append, List.map_cons]

theorem runFrom_map (mayFollow : β → β → Bool) (f : α → β) (x : α) (ys : List α) :
    runFrom mayFollow (f x) (ys.map f) =
      ((runFrom (fun a b => mayFollow (f a) (f b)) x ys).1.map f,
        (runFrom (fun a b => mayFollow (f a) (f b)) x ys).2.map f) := by
  induction ys generalizing x with
  | nil => rfl
  | cons y ys ih =>
    rw [List.map_cons, runFrom, runFrom]
    split
    · rw [ih]
      rfl
    · rfl

theorem firstRun_map (less : β → β → Bool) (f : α → β) (xs : List α) :
    firstRun less (xs.map f) =
      ((firstRun (fun a b => less (f a) (f b)) xs).1.map f,
        (firstRun (fun a b => less (f a) (f b)) xs).2.map f) := by
  match xs with
  | [] => rfl
  | [x] => rfl
  | x :: y :: ys =>
    rw [List.map_cons, List.map_cons, firstRun, firstRun, ← List.map_cons]
    split
    · rw [runFrom_map]
      dsimp only
      rw [← List.map_reverse]
    · rw [runFrom_map]

/-- Sorting looks at nothing but the keys. -/
theorem sortBy_map (less : β → β → Bool) (f : α → β) (xs : List α) :
    sortBy less (xs.map f) = (sortBy (fun a b => less (f a) (f b)) xs).map f := by
  unfold sortBy
  rw [firstRun_map]
  dsimp only
  generalize (firstRun (fun a b => less (f a) (f b)) xs).1 = run
  induction (firstRun (fun a b => less (f a) (f b)) xs).2 generalizing run with
  | nil => rfl
  | cons x rest ih => rw [List.map_cons, List.foldl_cons, List.foldl_cons, insertBy_map, ih]

theorem firstLeast_map (less : β → β → Bool) (f : α → β) (xs : List α) :
    firstLeast less (xs.map f) = (firstLeast (fun a b => less (f a) (f b)) xs).map f := by
  induction xs using List.reverseRecOn with
  | nil => rfl
  | append_singleton xs x ih =>
    rw [List.map_append, List.map_singleton, firstLeast_append, firstLeast_append, ih]
    cases firstLeast (fun a b => less (f a) (f b)) xs with
    | none => rfl
    | some b => exact (apply_ite (Option.map f) _ (some x) (some b)).symm

/-! ## Tests that rank the items of a list -/

section
variable {less : α → α → Bool} {xs : List α}

theorem sortBy_attach (less : α → α → Bool) (xs : List α) :
    (sortBy (fun a b : {x // x ∈ xs} => less a b) xs.attach).map Subtype.val = sortBy less xs := by
  rw [← sortBy_map, List.attach_map_subtype_val]

theorem ascends_sortBy_of_mem (h : Ranks fun a b : {x // x ∈ xs} => less a b) :
    Ascends less (sortBy less xs) := by
  rw [← sortBy_attach]
  exact List.pairwise_map.2 (ascends_sortBy h xs.attach)

theorem pairwise_sortBy_of_mem (h : Ranks fun a b : {x // x ∈ xs} => less a b) (hxs : xs.Nodup)
    {R : α → α → Prop} (hR : xs.Pairwise R) :
    (sortBy less xs).Pairwise fun a b => less a b = true ∨ R a b := by
  rw [← List.attach_map_subtype_val xs] at hxs hR
  rw [← sortBy_attach]
  exact List.pairwise_map.2 (pairwise_sortBy h (List.Nodup.of_map _ hxs) (List.pairwise_map.1 hR))

theorem exists_split_of_firstLeast_of_mem (h : Ranks fun a b : {x // x ∈ xs} => less a b) {a : α}
    (ha : firstLeast less xs = some a) : ∃ before after, xs = before ++ a :: after ∧
      (∀ x ∈ before, less a x = true) ∧ ∀ x ∈ after, less x a = false := by
  rw [← List.attach_map_subtype_val xs, firstLeast_map] at ha
  obtain ⟨⟨_, hmem⟩, hleast, rfl⟩ := Option.map_eq_some_iff.1 ha
  obtain ⟨before, after, hsplit, hbefore, hafter⟩ := exists_split_of_firstLeast h hleast
  refine ⟨before.map Subtype.val, after.map Subtype.val, ?_, ?_, ?_⟩
  · rw [← List.map_cons, ← List.map_append, ← hsplit, List.attach_map_subtype_val]
  · exact List.forall_mem_map.2 hbefore
  · exact List.forall_mem_map.2 hafter

end

end FormulaMap

/-
The reading order of a fraction.

The numerator and the denominator of a fraction are siblings of the bar when the elements
around them leave no nodes.  The columns are then cut over both rows at once.  The bar is
always in the first column, for it reaches as far to the left as anything; a box is in it
when a chain of overlapping neighbours leads there, and whatever is cut off is read after
the whole first column.  So the numerator comes first exactly when none of it is cut off
and reading the first column downward does not mix up a row (`Stacked.leaves_iff`).
-/
import FormulaMap.Geometry.Tolerances
import FormulaMap.Proofs.Surface.Columns
import Mathlib.Data.List.Nodup

namespace FormulaMap
namespace ReadingOrder

/-- A row of boxes over a bar and a row of boxes under it, each row given from left to
right. -/
structure Stacked (above : List (Node Rat)) (bar : Node Rat) (below : List (Node Rat)) : Prop where
  wide : ∀ n ∈ above ++ bar :: below, n.box.left < n.box.right
  inside : ∀ n ∈ above ++ bar :: below,
    bar.box.left ≤ n.box.left ∧ n.box.right ≤ bar.box.right
  overBar : ∀ n ∈ above, n.box.top < bar.box.top ∧ n.box.bottom ≤ bar.box.top
  underBar : ∀ n ∈ below, bar.box.top < n.box.top ∧ bar.box.bottom ≤ n.box.top
  numerator : above.Pairwise fun a b => a.box.right ≤ b.box.left
  denominator : below.Pairwise fun a b => a.box.right ≤ b.box.left

/-- Further up, or as far up and further to the left. -/
def Earlier (a b : Node Rat) : Prop :=
  a.box.top < b.box.top ∨ a.box.top = b.box.top ∧ a.box.left < b.box.left

theorem Earlier.asymm {a b : Node Rat} (hab : Earlier a b) : ¬ Earlier b a := by
  rintro (hba | ⟨htop, hba⟩) <;> rcases hab with hab | ⟨htop', hab⟩ <;> linarith

namespace Stacked

variable {above below children : List (Node Rat)} {bar : Node Rat}

/-! ## The boxes of the two rows -/

theorem wide_above (h : Stacked above bar below) {n : Node Rat} (hn : n ∈ above) :
    n.box.left < n.box.right :=
  h.wide n (List.mem_append_left _ hn)

theorem wide_below (h : Stacked above bar below) {n : Node Rat} (hn : n ∈ below) :
    n.box.left < n.box.right :=
  h.wide n (List.mem_append_right above (List.mem_cons_of_mem bar hn))

/-- From left to right in each row, and from the upper row down. -/
theorem pairwise (h : Stacked above bar below) :
    (above ++ bar :: below).Pairwise fun a b =>
      a.box.top < b.box.top ∨ a.box.left < b.box.left := by
  refine List.pairwise_append.2 ⟨?_, List.pairwise_cons.2 ⟨?_, ?_⟩, ?_⟩
  · exact h.numerator.imp_of_mem fun ha _ hab => Or.inr ((h.wide_above ha).trans_le hab)
  · exact fun n hn => Or.inl (h.underBar n hn).1
  · exact h.denominator.imp_of_mem fun ha _ hab => Or.inr ((h.wide_below ha).trans_le hab)
  · intro a ha b hb
    rcases List.mem_cons.1 hb with rfl | hb
    · exact Or.inl (h.overBar a ha).1
    · exact Or.inl ((h.overBar a ha).1.trans (h.underBar b hb).1)

/-- No two boxes have the same upper left corner. -/
theorem nodup_corners (h : Stacked above bar below) :
    ((above ++ bar :: below).map fun n => (n.box.top, n.box.left)).Nodup := by
  refine List.pairwise_map.2 (h.pairwise.imp fun {a b} hab heq => ?_)
  rw [Prod.mk.injEq] at heq
  exact hab.elim (fun htop => htop.ne heq.1) (fun hleft => hleft.ne heq.2)

theorem nodup (h : Stacked above bar below) : (above ++ bar :: below).Nodup :=
  h.nodup_corners.of_map

/-- Distinct boxes have different corners, so an order by corners is strict. -/
theorem earlier_of_le (h : Stacked above bar below) {a b : Node Rat}
    (ha : a ∈ above ++ bar :: below) (hb : b ∈ above ++ bar :: below) (hne : a ≠ b)
    (htop : a.box.top ≤ b.box.top) (hleft : a.box.left ≤ b.box.left) : Earlier a b := by
  rcases htop.lt_or_eq with htop | htop
  · exact Or.inl htop
  · refine Or.inr ⟨htop, hleft.lt_of_ne fun heq => hne ?_⟩
    exact List.inj_on_of_nodup_map h.nodup_corners ha hb (Prod.ext htop heq)

/-! ## The first column -/

variable {ratio : Rat}

theorem fromLeft_perm (hperm : children.Perm (above ++ bar :: below)) :
    (fromLeft children).Perm (above ++ bar :: below) :=
  (sortBy_perm _ children).trans hperm

/-- The bar is in the first column. -/
theorem columns_eq_cons (h : Stacked above bar below) (hratio : ratio < 1)
    (hperm : children.Perm (above ++ bar :: below)) :
    ∃ column more, columns ratio children = column :: more ∧ bar ∈ column := by
  have hall := fromLeft_perm hperm
  obtain ⟨front, back, hsplit⟩ := List.append_of_mem
    (hall.mem_iff.2 (List.mem_append_right above List.mem_cons_self))
  have hsorted := pairwise_fromLeft children
  rw [hsplit] at hsorted hall
  -- what comes before the bar begins as far left as the bar does
  have hleft : ∀ n ∈ front ++ [bar], n ∈ above ++ bar :: below ∧ n.box.left = bar.box.left := by
    intro n hn
    rcases List.mem_append.1 hn with hn | hn
    · have hmem := hall.mem_iff.1 (List.mem_append_left _ hn)
      have hle := (List.pairwise_append.1 hsorted).2.2 n hn bar List.mem_cons_self
      exact ⟨hmem, le_antisymm hle (h.inside n hmem).1⟩
    · rw [List.mem_singleton.1 hn]
      exact ⟨List.mem_append_right above List.mem_cons_self, rfl⟩
  have hchain : (front ++ [bar]).IsChain fun a b => sameColumn ratio a.box b.box = true := by
    refine (List.pairwise_of_forall_mem_list fun a ha b hb => ?_).isChain
    obtain ⟨hamem, hal⟩ := hleft a ha
    obtain ⟨hbmem, hbl⟩ := hleft b hb
    exact sameColumn_of_left_eq hratio (h.wide a hamem) (h.wide b hbmem) (hal.trans hbl.symm)
  obtain ⟨run, more, hruns⟩ := runs_append back hchain
  refine ⟨front ++ bar :: run, more, ?_, List.mem_append_right front List.mem_cons_self⟩
  rw [columns, hsplit, hruns]

/-- Two boxes of the lower row do not overlap. -/
theorem apart_below (h : Stacked above bar below) {a b : Node Rat} (ha : a ∈ below) (hb : b ∈ below)
    (hne : a ≠ b) (hleft : a.box.left ≤ b.box.left) : a.box.right ≤ b.box.left := by
  rcases pair_sublist_or ha hb hne with hpair | hpair
  · exact List.pairwise_iff_forall_sublist.1 h.denominator hpair
  · have hturned := List.pairwise_iff_forall_sublist.1 h.denominator hpair
    have hwide := h.wide_below hb
    linarith

/-- A column within the lower row is one box. -/
theorem downward_of_subset_below (h : Stacked above bar below) (hratio : 0 ≤ ratio)
    (hperm : children.Perm (above ++ bar :: below)) {c : List (Node Rat)}
    (hc : c ∈ columns ratio children) (hbelow : c ⊆ below) : downward c = c := by
  match c, hc, hbelow with
  | [], _, _ => rfl
  | [n], _, _ => rfl
  | a :: b :: c, hc, hbelow =>
    have hjoined := (List.isChain_cons_cons.1 (isChain_of_mem_runs hc)).1
    have hsorted := pairwise_fromLeft children
    have hnodup := (fromLeft_perm hperm).nodup_iff.2 h.nodup
    rw [← flatten_columns ratio, List.pairwise_flatten] at hsorted
    rw [← flatten_columns ratio, List.nodup_flatten] at hnodup
    have hleft := (List.pairwise_cons.1 (hsorted.1 _ hc)).1 b List.mem_cons_self
    have hne := (List.pairwise_cons.1 (hnodup.1 _ hc)).1 b List.mem_cons_self
    have ha : a ∈ below := hbelow List.mem_cons_self
    have hb : b ∈ below := hbelow (List.mem_cons_of_mem a List.mem_cons_self)
    have hapart := sameColumn_of_apart hratio (h.wide_below ha).le (h.wide_below hb).le
      (h.apart_below ha hb hne hleft)
    rw [hapart] at hjoined
    exact absurd hjoined Bool.false_ne_true

/-! ## Reading -/

/-- What the order of reading keeps of the rows within the first column. -/
theorem top_le_of_leaves (h : Stacked above bar below) {column rest : List (Node Rat)}
    (hread : downward column ++ rest = above ++ bar :: below) {a b : Node Rat}
    (hab : [a, b].Sublist (above ++ bar :: below)) (ha : a ∈ column) (hb : b ∈ column) :
    a.box.top ≤ b.box.top := by
  have hne : a ≠ b := by
    have hpair := h.nodup.sublist hab
    simpa using hpair
  have hmem {n : Node Rat} (hn : n ∈ column) : n ∈ downward column :=
    (sortBy_perm _ column).mem_iff.2 hn
  rcases pair_sublist_or (hmem ha) (hmem hb) hne with hpair | hpair
  · exact List.pairwise_iff_forall_sublist.1 (pairwise_downward column) hpair
  · have hturned := hpair.trans (List.sublist_append_left (downward column) rest)
    rw [hread] at hturned
    exact absurd hab (not_pair_sublist h.nodup hturned)

theorem mem_column_of_leaves (h : Stacked above bar below) {column rest : List (Node Rat)}
    (hread : downward column ++ rest = above ++ bar :: below) (hbar : bar ∈ column) {n : Node Rat}
    (hn : n ∈ above) : n ∈ column := by
  have hbar' : bar ∈ downward column := (sortBy_perm _ column).mem_iff.2 hbar
  have hmem : n ∈ downward column ++ rest := hread ▸ List.mem_append_left _ hn
  rcases List.mem_append.1 hmem with hn' | hn'
  · exact (sortBy_perm _ column).mem_iff.1 hn'
  · have hfirst : [n, bar].Sublist (above ++ bar :: below) :=
      (List.singleton_sublist.2 hn).append
        (List.singleton_sublist.2 List.mem_cons_self)
    have hlast : [bar, n].Sublist (above ++ bar :: below) :=
      hread ▸ (List.singleton_sublist.2 hbar').append (List.singleton_sublist.2 hn')
    exact absurd hlast (not_pair_sublist h.nodup hfirst)

theorem filter_below (h : Stacked above bar below) :
    (above ++ bar :: below).filter (· ∈ below) = below := by
  obtain ⟨-, hrest, happart⟩ := List.nodup_append.1 h.nodup
  have habove : above.filter (· ∈ below) = [] := List.filter_eq_nil_iff.2 fun n hn hmem =>
    happart n hn n (List.mem_cons_of_mem bar (of_decide_eq_true hmem)) rfl
  have hbelow : below.filter (· ∈ below) = below :=
    List.filter_eq_self.2 fun n hn => decide_eq_true hn
  rw [List.filter_append, habove, List.nil_append, List.filter_cons_of_neg, hbelow]
  exact fun hmem => (List.nodup_cons.1 hrest).1 (of_decide_eq_true hmem)

/-- The lower row is what the first column has of it and then all that is cut off. -/
theorem below_eq (h : Stacked above bar below)
    (hperm : children.Perm (above ++ bar :: below)) {column : List (Node Rat)}
    {more : List (List (Node Rat))} (hcolumns : columns ratio children = column :: more)
    (hmore : more.flatten ⊆ below) :
    column.filter (· ∈ below) ++ more.flatten = below := by
  have hsorted := (pairwise_fromLeft children).filter (· ∈ below)
  have hall := (fromLeft_perm hperm).filter (· ∈ below)
  have hrest : more.flatten.filter (· ∈ below) = more.flatten :=
    List.filter_eq_self.2 fun n hn => decide_eq_true (hmore hn)
  rw [← flatten_columns ratio, hcolumns, List.flatten_cons, List.filter_append, hrest]
    at hsorted hall
  rw [h.filter_below] at hall
  have hbelow : below.Pairwise fun a b => a.box.left ≤ b.box.left :=
    h.denominator.imp_of_mem fun ha _ hab => (h.wide_below ha).le.trans hab
  refine hall.eq_of_pairwise (fun a b ha hb hab hba => ?_) hsorted hbelow
  by_contra hne
  have hwide := h.wide_below hb
  have hwide' := h.wide_below (hall.mem_iff.1 ha)
  have happart := h.apart_below (hall.mem_iff.1 ha) hb hne hab
  linarith

/-- The first column from top to bottom, ties from left to right. -/
theorem pairwise_downward_column (h : Stacked above bar below)
    (hperm : children.Perm (above ++ bar :: below)) {column : List (Node Rat)}
    {more : List (List (Node Rat))} (hcolumns : columns ratio children = column :: more) :
    (downward column).Pairwise Earlier := by
  have hsorted := pairwise_fromLeft children
  have hall := fromLeft_perm hperm
  have hnodup := hall.nodup_iff.2 h.nodup
  rw [← flatten_columns ratio, hcolumns, List.flatten_cons] at hsorted hnodup hall
  have hcolumn := (List.nodup_append.1 hnodup).1
  have hmem {n : Node Rat} (hn : n ∈ downward column) : n ∈ above ++ bar :: below :=
    hall.mem_iff.1 (List.mem_append_left _ ((sortBy_perm _ column).mem_iff.1 hn))
  have hdistinct : (downward column).Nodup := (sortBy_perm _ column).nodup_iff.2 hcolumn
  have hranks := Coordinate.ranks_of_key (fun n : Node Rat => n.box.top) fun _ => isNumber_rat _
  have hties := pairwise_sortBy hranks hcolumn (List.pairwise_append.1 hsorted).1
  refine ((hties.and (pairwise_downward column)).and hdistinct).imp_of_mem ?_
  rintro a b ha hb ⟨⟨hless | hleft, htop⟩, hne⟩
  · exact Or.inl (of_decide_eq_true hless)
  · exact h.earlier_of_le (hmem ha) (hmem hb) hne htop hleft

/-- The numerator, the bar and a part of the lower row, in the order of the rows. -/
theorem pairwise_rows (h : Stacked above bar below) {part : List (Node Rat)}
    (hpart : part.Sublist below) (htops : above.Pairwise fun a b => a.box.top ≤ b.box.top)
    (hbottoms : part.Pairwise fun a b => a.box.top ≤ b.box.top) :
    (above ++ bar :: part).Pairwise Earlier := by
  have hsublist : (above ++ bar :: part).Sublist (above ++ bar :: below) :=
    (List.Sublist.refl above).append (hpart.cons_cons bar)
  have hrows := (h.pairwise.sublist hsublist).and (h.nodup.sublist hsublist)
  have htop : (above ++ bar :: part).Pairwise fun a b => a.box.top ≤ b.box.top := by
    refine List.pairwise_append.2 ⟨htops, List.pairwise_cons.2 ⟨?_, hbottoms⟩, ?_⟩
    · exact fun n hn => (h.underBar n (hpart.subset hn)).1.le
    · intro a ha b hb
      rcases List.mem_cons.1 hb with rfl | hb
      · exact (h.overBar a ha).1.le
      · exact ((h.overBar a ha).1.trans (h.underBar b (hpart.subset hb)).1).le
  refine (hrows.and htop).imp_of_mem ?_
  rintro a b ha hb ⟨⟨htop | hleft, hne⟩, hle⟩
  · exact Or.inl htop
  · exact h.earlier_of_le (hsublist.subset ha) (hsublist.subset hb) hne hle hleft.le

theorem downward_eq (h : Stacked above bar below)
    (hperm : children.Perm (above ++ bar :: below)) {column : List (Node Rat)}
    {more : List (List (Node Rat))} (hcolumns : columns ratio children = column :: more)
    (hbar : bar ∈ column) (habove : ∀ n ∈ above, n ∈ column) (hmore : more.flatten ⊆ below)
    (htops : above.Pairwise fun a b => a.box.top ≤ b.box.top)
    (hbottoms : below.Pairwise fun a b => a ∈ column → b ∈ column → a.box.top ≤ b.box.top) :
    downward column = above ++ bar :: column.filter (· ∈ below) := by
  have hpart : (column.filter (· ∈ below)).Sublist below := by
    conv_rhs => rw [← h.below_eq hperm hcolumns hmore]
    exact List.sublist_append_left _ _
  have hall := fromLeft_perm hperm
  have hnodup := hall.nodup_iff.2 h.nodup
  rw [← flatten_columns ratio, hcolumns, List.flatten_cons] at hnodup hall
  have hcolumn := (List.nodup_append.1 hnodup).1
  have hmem (n : Node Rat) : n ∈ column ↔ n ∈ above ++ bar :: column.filter (· ∈ below) := by
    rw [List.mem_append, List.mem_cons, List.mem_filter, decide_eq_true_eq]
    constructor
    · intro hn
      have hrow := hall.mem_iff.1 (List.mem_append_left _ hn)
      rw [List.mem_append, List.mem_cons] at hrow
      exact hrow.imp_right fun hrest => hrest.imp_right fun hbelow => ⟨hn, hbelow⟩
    · rintro (hn | rfl | ⟨hn, -⟩)
      · exact habove n hn
      · exact hbar
      · exact hn
  have hrows := h.pairwise_rows hpart htops
    ((hbottoms.sublist hpart).imp_of_mem fun ha hb hab =>
      hab (List.mem_of_mem_filter ha) (List.mem_of_mem_filter hb))
  have hrowsNodup := h.nodup.sublist ((List.Sublist.refl above).append (hpart.cons_cons bar))
  have hperm' : (downward column).Perm (above ++ bar :: column.filter (· ∈ below)) :=
    (sortBy_perm _ column).trans ((List.perm_ext_iff_of_nodup hcolumn hrowsNodup).2 hmem)
  exact hperm'.eq_of_pairwise (fun a b _ _ hab hba => absurd hba hab.asymm)
    (h.pairwise_downward_column hperm hcolumns) hrows

/-- When the numerator is in the first column, what is cut off is of the denominator. -/
theorem flatten_subset_below (h : Stacked above bar below)
    (hperm : children.Perm (above ++ bar :: below)) {column : List (Node Rat)}
    {more : List (List (Node Rat))} (hcolumns : columns ratio children = column :: more)
    (hbar : bar ∈ column) (habove : ∀ n ∈ above, n ∈ column) : more.flatten ⊆ below := by
  intro n hn
  have hall := fromLeft_perm hperm
  have hnodup := hall.nodup_iff.2 h.nodup
  rw [← flatten_columns ratio, hcolumns, List.flatten_cons] at hnodup hall
  have happart := (List.nodup_append.1 hnodup).2.2
  have hrow := hall.mem_iff.1 (List.mem_append_right column hn)
  rcases List.mem_append.1 hrow with hrow | hrow
  · exact absurd rfl (happart n (habove n hrow) n hn)
  · rcases List.mem_cons.1 hrow with rfl | hrow
    · exact absurd rfl (happart n hbar n hn)
    · exact hrow

theorem flatMap_downward_iff (h : Stacked above bar below) (hpos : 0 ≤ ratio) (hratio : ratio < 1)
    (hperm : children.Perm (above ++ bar :: below)) :
    (columns ratio children).flatMap downward = above ++ bar :: below ↔
      ∃ column more, columns ratio children = column :: more ∧
        (∀ n ∈ above, n ∈ column) ∧
        (above.Pairwise fun a b => a.box.top ≤ b.box.top) ∧
        below.Pairwise fun a b => a ∈ column → b ∈ column → a.box.top ≤ b.box.top := by
  obtain ⟨column, more, hcolumns, hbar⟩ := h.columns_eq_cons hratio hperm
  constructor
  · intro hread
    rw [hcolumns, List.flatMap_cons] at hread
    have habove : ∀ n ∈ above, n ∈ column := fun n hn => h.mem_column_of_leaves hread hbar hn
    refine ⟨column, more, hcolumns, habove, ?_, ?_⟩
    · refine List.pairwise_iff_forall_sublist.2 fun {a b} hab => ?_
      exact h.top_le_of_leaves hread (hab.trans (List.sublist_append_left _ _))
        (habove a (hab.subset (by simp))) (habove b (hab.subset (by simp)))
    · refine List.pairwise_iff_forall_sublist.2 fun {a b} hab => ?_
      exact h.top_le_of_leaves hread ((hab.cons bar).trans (List.sublist_append_right _ _))
  · rintro ⟨column', more', hcolumns', habove, htops, hbottoms⟩
    obtain ⟨rfl, rfl⟩ := List.cons.inj (hcolumns.symm.trans hcolumns')
    have hmore := h.flatten_subset_below hperm hcolumns hbar habove
    have hsingle : more.flatMap downward = more.flatten := by
      rw [← List.flatMap_id']
      refine List.flatMap_congr fun c hc => ?_
      refine h.downward_of_subset_below hpos hperm (hcolumns ▸ List.mem_cons_of_mem column hc) ?_
      exact fun n hn => hmore (List.mem_flatten_of_mem hc hn)
    rw [hcolumns, List.flatMap_cons,
      h.downward_eq hperm hcolumns hbar habove hmore htops hbottoms, hsingle, List.append_assoc,
      List.cons_append, h.below_eq hperm hcolumns hmore]

/-- A fraction is read numerator first exactly when all of the numerator is in the first
column and no box is higher than one to its left in the same row and in that column. -/
theorem leaves_iff (h : Stacked above bar below) (parent : Node Rat)
    (hperm : children.Perm (above ++ bar :: below)) :
    leaves Tolerances.standard.columnOverlap (.node parent (children.map fun n => .node n [])) =
        above ++ bar :: below ↔
      ∃ column more, columns Tolerances.standard.columnOverlap children = column :: more ∧
        (∀ n ∈ above, n ∈ column) ∧
        (above.Pairwise fun a b => a.box.top ≤ b.box.top) ∧
        below.Pairwise fun a b => a ∈ column → b ∈ column → a.box.top ≤ b.box.top := by
  have hne : children ≠ [] := by
    rintro rfl
    exact absurd hperm.symm (by simp)
  have hratio : (Tolerances.standard : Tolerances Rat).columnOverlap = 1 / 2 := rfl
  rw [leaves_node_of_leaves _ parent hne, hratio]
  exact h.flatMap_downward_iff (by norm_num) (by norm_num) hperm

end Stacked

/-- A glyph with nothing known of it but its kind and its box. -/
def glyph (number : Nat) (kind : Kind) (text : String) (box : Box Rat) : Node Rat where
  number := number
  above := [0]
  id := Node.idOf "glyph" number
  kind := kind
  role := "glyph"
  box := box
  text := text
  source := [number]
  synthetic := false
  atom := true
  path := none
  operator := none
  operatorRank := none
  value := none
  slot := none
  marks := .none

namespace TwelveFifths

def one : Node Rat := glyph 1 .num "1" ⟨4, 0, 10, 10⟩
def two : Node Rat := glyph 2 .num "2" ⟨10, 0, 16, 10⟩
def bar : Node Rat := glyph 3 .fracBar "" ⟨0, 11, 20, 12⟩
def five : Node Rat := glyph 4 .num "5" ⟨6, 14, 14, 24⟩

theorem stacked : Stacked [one, two] bar [five] := by
  constructor <;> decide +kernel

/-- The one digit below overlaps both digits above, so that all is one column. -/
theorem leaves_eq :
    Stacked [one, two] bar [five] ∧ [five, bar, two, one].Perm ([one, two] ++ bar :: [five]) ∧
      leaves Tolerances.standard.columnOverlap
        (.node (glyph 0 .root "" ⟨0, 0, 20, 24⟩) ([five, bar, two, one].map fun n => .node n [])) =
          [one, two, bar, five] := by
  have hperm : [five, bar, two, one].Perm ([one, two] ++ bar :: [five]) := by decide +kernel
  refine ⟨stacked, hperm, (stacked.leaves_iff _ hperm).2
    ⟨[bar, one, five, two], [], ?_, ?_, ?_, ?_⟩⟩ <;> decide +kernel

end TwelveFifths

/-- The sum of one and two over the sum of three and four: the second and the third glyphs
of the rows are read after the whole first column. -/
theorem not_forall_numerator_first :
    ¬ ∀ (above below children : List (Node Rat)) (bar parent : Node Rat), Stacked above bar below →
      children.Perm (above ++ bar :: below) →
      leaves Tolerances.standard.columnOverlap (.node parent (children.map fun n => .node n [])) =
        above ++ bar :: below := by
  intro h
  have hread := h
    [glyph 1 .num "1" ⟨0, 0, 10, 10⟩, glyph 2 .binaryOp "+" ⟨10, 0, 20, 10⟩,
      glyph 3 .num "2" ⟨20, 0, 30, 10⟩]
    [glyph 5 .num "3" ⟨0, 14, 10, 24⟩, glyph 6 .binaryOp "+" ⟨10, 14, 20, 24⟩,
      glyph 7 .num "4" ⟨20, 14, 30, 24⟩]
    _ (glyph 4 .fracBar "" ⟨0, 11, 30, 12⟩) (glyph 0 .root "" ⟨0, 0, 30, 24⟩)
    (by constructor <;> decide +kernel) (List.Perm.refl _)
  exact absurd hread (by decide +kernel)

end ReadingOrder
end FormulaMap

/-
The elements of a page and those that hold them.

A page that is built shows the layout that it was built for, its elements have the numbers
in document order, and adding has set the parent of every child to the element that holds
it.  All of this is read off one description of what building gives (`link`), which sets the
parent of an element when it is made.  As no two elements have one number, going from
parent to parent leads through the elements on the way from the root (`upFrom_eq`); so the
climb to an annotated element follows the parents (`annotated?_eq`).
-/
import FormulaMap.Layout.Page
import FormulaMap.Proofs.Layout.Mapping
import FormulaMap.Proofs.Surface.Visits
import FormulaMap.Surface.Attributes
import Mathlib.Data.List.Induction

namespace FormulaMap

variable {α : Type}

theorem Tree.valuesTo_map {β : Type} (f : α → β) (t : Tree α) (a : Address) :
    (t.map f).valuesTo a = (t.valuesTo a).map f := by
  induction a generalizing t with
  | nil =>
    cases t
    rfl
  | cons i rest ih =>
    rw [valuesTo, valuesTo, children_map, List.getElem?_map, List.map_cons]
    cases t with
    | node x ts =>
      cases hc : ts[i]? with
      | none => simp only [children, hc, Option.map_none, List.map_nil]; rfl
      | some c => simp only [children, hc, Option.map_some, ih]; rfl

namespace Page

/-! ## What is built -/

mutual

/-- The page of a layout below `parent`, with numbers from `k` on. -/
def link (parent : Option Nat) (k : Nat) : Layout α → Page α
  | .node e ts => .node ⟨k, parent, e⟩ (linkAll k (k + 1) ts)

def linkAll (holder k : Nat) : List (Layout α) → List (Page α)
  | [] => []
  | t :: ts => link (some holder) k t :: linkAll holder (k + t.size) ts

end

theorem add_link (p : Page α) (k : Nat) (t : Layout α) :
    p.add (link none k t) = .node p.value (p.children ++ [link (some p.value.number) k t]) := by
  cases t with
  | node e ts => rw [link, link]; rfl

mutual

theorem ofLayout_run : ∀ (t : Layout α) (k : Nat), (ofLayout t).run k = (link none k t, k + t.size)
  | .node e ts, k => by
    rw [ofLayout, link, Tree.size]
    show (addAll (.node ⟨k, none, e⟩ []) ts).run (k + 1) = _
    rw [addAll_run ts, Nat.add_right_comm, Nat.add_assoc]
    rfl

theorem addAll_run : ∀ (ts : List (Layout α)) (p : Page α) (k : Nat), (addAll p ts).run k =
    (.node p.value (p.children ++ linkAll p.value.number k ts), k + Tree.sizeAll ts)
  | [], p, k => by
    rw [addAll, linkAll, Tree.sizeAll, List.append_nil]
    cases p
    rfl
  | t :: ts, p, k => by
    have hstep : (addAll p (t :: ts)).run k =
        (addAll (p.add ((ofLayout t).run k).1) ts).run ((ofLayout t).run k).2 := by
      rw [addAll]
      rfl
    rw [hstep, ofLayout_run t, add_link, addAll_run ts, linkAll, Tree.sizeAll, ← Nat.add_assoc]
    simp only [Tree.value, Tree.children, List.append_assoc, List.singleton_append]

end

/-! ## Elements and numbers -/

mutual

theorem layout_link (parent : Option Nat) (k : Nat) :
    ∀ t : Layout α, (link parent k t).layout = t
  | .node e ts => by
    rw [link, layout, Tree.map]
    exact congrArg (Tree.node e) (layout_linkAll k (k + 1) ts)

theorem layout_linkAll (holder k : Nat) :
    ∀ ts : List (Layout α), Tree.mapAll (·.element) (linkAll holder k ts) = ts
  | [] => by rw [linkAll, Tree.mapAll]
  | t :: ts => by
    rw [linkAll, Tree.mapAll, layout_linkAll holder (k + t.size) ts]
    exact congrArg (· :: ts) (layout_link (some holder) k t)

end

mutual

theorem numbers_link (parent : Option Nat) (k : Nat) :
    ∀ t : Layout α, (link parent k t).preorder.map (·.number) = List.range' k t.size
  | .node e ts => by
    rw [link, Tree.preorder, List.map_cons, numbers_linkAll k (k + 1) ts, Tree.size,
      List.range'_succ]

theorem numbers_linkAll (holder k : Nat) : ∀ ts : List (Layout α),
    (Tree.preorderAll (linkAll holder k ts)).map (·.number) = List.range' k (Tree.sizeAll ts)
  | [] => by
    rw [linkAll, Tree.sizeAll]
    rfl
  | t :: ts => by
    rw [linkAll, Tree.preorderAll, List.map_append, numbers_link (some holder) k t,
      numbers_linkAll holder (k + t.size) ts, Tree.sizeAll, List.range'_append_1]

end

/-! ## Parents -/

/-- The elements have numbers of their own; the first has no parent, and that of every child is
the element that holds it. -/
structure WellLinked (p : Page α) : Prop where
  distinct : (p.preorder.map (·.number)).Nodup
  root : p.value.parent = none
  held : ∀ s ∈ p.subtrees, ∀ c ∈ s.children, c.value.parent = some s.value.number

theorem parent_of_mem_linkAll {holder k : Nat} {ts : List (Layout α)} {c : Page α}
    (hc : c ∈ linkAll holder k ts) : c.value.parent = some holder := by
  induction ts generalizing k with
  | nil =>
    rw [linkAll] at hc
    exact absurd hc List.not_mem_nil
  | cons t ts ih =>
    rw [linkAll] at hc
    rcases List.mem_cons.1 hc with rfl | hc
    · cases t with
      | node e us => rw [link]; rfl
    · exact ih hc

mutual

theorem held_link (parent : Option Nat) (k : Nat) : ∀ t : Layout α,
    ∀ s ∈ (link parent k t).subtrees, ∀ c ∈ s.children, c.value.parent = some s.value.number
  | .node e ts => by
    intro s hs
    rw [link, Tree.subtrees] at hs
    rcases List.mem_cons.1 hs with rfl | hs
    · exact fun c hc => parent_of_mem_linkAll hc
    · exact held_linkAll k (k + 1) ts s hs

theorem held_linkAll (holder k : Nat) : ∀ ts : List (Layout α),
    ∀ s ∈ Tree.subtreesAll (linkAll holder k ts), ∀ c ∈ s.children,
      c.value.parent = some s.value.number
  | [] => by
    intro s hs
    rw [linkAll] at hs
    exact absurd hs List.not_mem_nil
  | t :: ts => by
    intro s hs
    rw [linkAll, Tree.subtreesAll] at hs
    rcases List.mem_append.1 hs with hs | hs
    · exact held_link (some holder) k t s hs
    · exact held_linkAll holder (k + t.size) ts s hs

end

/-- Building sets the parents. -/
theorem wellLinked_ofLayout (t : Layout α) (k : Nat) : ((ofLayout t).run k).1.WellLinked := by
  rw [ofLayout_run]
  refine ⟨?_, ?_, held_link none k t⟩
  · rw [numbers_link]
    exact List.nodup_range'
  · cases t with
    | node e ts => rw [link]; rfl

theorem layout_ofLayout (t : Layout α) (k : Nat) : ((ofLayout t).run k).1.layout = t := by
  rw [ofLayout_run]
  exact layout_link none k t

/-! ## Going up -/

section
variable {p s c : Page α} {a : Address} {i : Nat}

theorem WellLinked.holder?_of_child (h : p.WellLinked) (hs : p.at? a = some s)
    (hc : s.children[i]? = some c) : p.holder? c.value = some s.value := by
  have hmem : s ∈ p.subtrees := (Tree.mem_subtrees_iff []).2 ⟨a, a, rfl, hs⟩
  rw [holder?, h.held s hmem c (List.mem_of_getElem? hc), Option.bind_some]
  exact find?_key Member.number h.distinct (Tree.value_mem_of_at? hs)

/-- Going from parent to parent leads back along the address of an element. -/
theorem WellLinked.upFrom_eq (h : p.WellLinked) (hs : p.at? a = some s) :
    p.upFrom a.length s.value = (p.valuesTo a).reverse := by
  induction a using List.reverseRecOn generalizing s with
  | nil =>
    obtain rfl := Option.some.inj hs
    rw [List.length_nil, upFrom, Tree.valuesTo, List.reverse_singleton]
  | append_singleton a i ih =>
    have hconcat := Tree.valuesTo_concat hs
    rw [Tree.at?_append] at hs
    obtain ⟨above, habove, hchild⟩ := Option.bind_eq_some_iff.1 hs
    obtain ⟨c, hc, hsame⟩ := Option.bind_eq_some_iff.1 hchild
    obtain rfl := Option.some.inj hsame
    rw [List.length_append, List.length_singleton, upFrom, h.holder?_of_child habove hc, hconcat,
      List.reverse_concat]
    exact congrArg (c.value :: ·) (ih habove)

/-- The climb from an element to an annotated one goes from parent to parent. -/
theorem WellLinked.annotated?_eq (h : p.WellLinked) (hs : p.at? a = some s) :
    p.layout.annotated? a =
      Layout.firstAnnotated ((p.upFrom a.length s.value).map (·.element)) := by
  rw [h.upFrom_eq hs, Layout.annotated?, layout, Tree.valuesTo_map, List.map_reverse]

end

end Page
end FormulaMap

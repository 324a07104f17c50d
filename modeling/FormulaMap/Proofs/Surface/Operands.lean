/-
How operands are found.

Both sides of an operation are looked up alike (`Side`): one fold over the atoms finds the
last one with the path of the operand, or else the first one below it (`byPath_eq`), and if
there is none, the atoms beside the operator are searched for the one that reaches nearest
to it (`Side.nearest_eq`).  What stands on one side of an operator has a number for the edge
that is nearer to it, so these atoms are ranked by their edges (`Side.ranks_nearer`) even if
others have edges that cannot be compared.  On an expression whose nodes have been given
paths, what the path of an operand covers is the subtree of the operand, so the two operands
of an operation are looked for in its two subtrees (`operands_of_binary`).
-/
import FormulaMap.Proofs.Formula.Subtrees
import FormulaMap.Proofs.Geometry.Comparing
import FormulaMap.Proofs.Surface.Pairing
import FormulaMap.Surface.Build
import FormulaMap.Surface.Enhance

namespace FormulaMap

variable {α β : Type}

/-! ## First and last items -/

/-- The first item of which `P` holds. -/
def IsFirst (P : β → Prop) (xs : List β) (x : β) : Prop :=
  ∃ before after, xs = before ++ x :: after ∧ P x ∧ ∀ y ∈ before, ¬P y

/-- The last item of which `P` holds. -/
def IsLast (P : β → Prop) (xs : List β) (x : β) : Prop :=
  ∃ before after, xs = before ++ x :: after ∧ P x ∧ ∀ y ∈ after, ¬P y

theorem find?_eq_some_iff_isFirst {test : β → Bool} {xs : List β} {x : β} :
    xs.find? test = some x ↔ IsFirst (test · = true) xs x := by
  rw [List.find?_eq_some_iff_append]
  constructor
  · rintro ⟨hx, before, after, hsplit, hbefore⟩
    exact ⟨before, after, hsplit, hx, fun y hy => by simpa using hbefore y hy⟩
  · rintro ⟨before, after, hsplit, hx, hbefore⟩
    exact ⟨hx, before, after, hsplit, fun y hy => by simpa using hbefore y hy⟩

theorem getLast?_filter_eq_some_iff_isLast {test : β → Bool} {xs : List β} {x : β} :
    (xs.filter test).getLast? = some x ↔ IsLast (test · = true) xs x := by
  rw [List.getLast?_filter, find?_eq_some_iff_isFirst]
  constructor
  · rintro ⟨after, before, hsplit, hx, hafter⟩
    refine ⟨before.reverse, after.reverse, ?_, hx, fun y hy => hafter y (List.mem_reverse.1 hy)⟩
    rw [← List.reverse_reverse xs, hsplit]
    simp
  · rintro ⟨before, after, rfl, hx, hafter⟩
    refine ⟨after.reverse, before.reverse, by simp, hx, fun y hy => hafter y ?_⟩
    exact List.mem_reverse.1 hy

theorem IsFirst.congr {P Q : β → Prop} {xs : List β} (h : ∀ x ∈ xs, P x ↔ Q x) {x : β}
    (hx : IsFirst P xs x) : IsFirst Q xs x := by
  obtain ⟨before, after, rfl, hP, hbefore⟩ := hx
  refine ⟨before, after, rfl, (h x (by simp)).1 hP, fun y hy => ?_⟩
  rw [← h y (List.mem_append_left _ hy)]
  exact hbefore y hy

theorem IsLast.congr {P Q : β → Prop} {xs : List β} (h : ∀ x ∈ xs, P x ↔ Q x) {x : β}
    (hx : IsLast P xs x) : IsLast Q xs x := by
  obtain ⟨before, after, rfl, hP, hafter⟩ := hx
  refine ⟨before, after, rfl, (h x (by simp)).1 hP, fun y hy => ?_⟩
  rw [← h y (List.mem_append_right _ (List.mem_cons_of_mem x hy))]
  exact hafter y hy

/-! ## Sides -/

/-- A side of an operator. -/
inductive Side where
  | left
  | right
  deriving DecidableEq, Repr

namespace Side

/-- The step from an operation to its operand on this side. -/
def step : Side → PathStep
  | left => .left
  | right => .right

def other : Side → Side
  | left => right
  | right => left

def found : Side → Operands α → Option (Node α)
  | left, pair => pair.left
  | right, pair => pair.right

/-- The operand of an operation. -/
def operand (l r : Expr) : Side → Expr
  | left => l
  | right => r

variable [Coordinate α]

def nearest : Side → Node α → List (Node α) → Option (Node α)
  | left => Operands.nearestLeft
  | right => Operands.nearestRight

/-- The node stands on this side of the centre of the operator. -/
def Holds (operator n : Node α) : Side → Prop
  | left => n.box.right ≤ operator.box.centerX
  | right => operator.box.centerX ≤ n.box.left

/-- The first node reaches further towards an operator that both have on this side of them. -/
def Nearer (a b : Node α) : Side → Prop
  | left => b.box.right < a.box.right
  | right => a.box.left < b.box.left

instance (operator n : Node α) : ∀ side : Side, Decidable (side.Holds operator n)
  | left => inferInstanceAs (Decidable (n.box.right ≤ operator.box.centerX))
  | right => inferInstanceAs (Decidable (operator.box.centerX ≤ n.box.left))

instance (a b : Node α) : ∀ side : Side, Decidable (side.Nearer a b)
  | left => inferInstanceAs (Decidable (b.box.right < a.box.right))
  | right => inferInstanceAs (Decidable (a.box.left < b.box.left))

/-- What can be the operand on this side when no path tells. -/
structure Candidate (side : Side) (t : Tolerances α) (operator n : Node α) : Prop where
  other : n.number ≠ operator.number
  kind : n.kind.isOperand = true
  level : Coordinate.distance n.box.midY operator.box.midY < t.operandCenter
  holds : side.Holds operator n

def isCandidate (side : Side) (t : Tolerances α) (operator n : Node α) : Bool :=
  decide (side.Holds operator n) &&
    (n.number != operator.number && n.kind.isOperand &&
      decide (Coordinate.distance n.box.midY operator.box.midY < t.operandCenter))

variable {t : Tolerances α} {operator n : Node α} {side : Side}

theorem isCandidate_iff : side.isCandidate t operator n = true ↔ side.Candidate t operator n := by
  rw [isCandidate, Bool.and_eq_true, Bool.and_eq_true, Bool.and_eq_true, decide_eq_true_eq,
    decide_eq_true_eq, bne_iff_ne]
  exact ⟨fun ⟨hholds, ⟨hother, hkind⟩, hlevel⟩ => ⟨hother, hkind, hlevel, hholds⟩,
    fun ⟨hother, hkind, hlevel, hholds⟩ => ⟨hholds, ⟨hother, hkind⟩, hlevel⟩⟩

/-- What stands on one side of an operator has a number for the edge that is nearer to it. -/
theorem ranks_nearer [Orders α] (side : Side) {ns : List (Node α)}
    (h : ∀ n ∈ ns, side.Holds operator n) :
    Ranks fun a b : {n // n ∈ ns} => decide (side.Nearer a.1 b.1) := by
  cases side with
  | left =>
    exact (Coordinate.ranks_of_key (fun n : {n // n ∈ ns} => n.1.box.right)
      fun n => (Orders.isNumber (h n n.2)).1).flip
  | right =>
    exact Coordinate.ranks_of_key (fun n : {n // n ∈ ns} => n.1.box.left)
      fun n => (Orders.isNumber (h n n.2)).2

/-- The search beside an operator. -/
theorem nearest_eq (side : Side) (t : Tolerances α) (operator : Node α)
    (atoms : List (Node α)) :
    side.nearest operator (Operands.beside t atoms operator) =
      firstLeast (fun a b => decide (side.Nearer a b))
        (atoms.filter (side.isCandidate t operator)) := by
  have hfilter : (Operands.beside t atoms operator).filter
      (fun a => decide (side.Holds operator a)) = atoms.filter (side.isCandidate t operator) := by
    rw [Operands.beside, List.filter_filter]
    rfl
  rw [← hfilter]
  cases side <;> rfl

end Side

/-! ## Looking up paths -/

namespace Operands

theorem matchAtom_eq (path : String) (best : Option (Node α)) (a : Node α) :
    matchAtom path best a = if a.joined? == some path then some a
      else best.or (if a.joined?.any (Path.covers path) then some a else none) := by
  unfold matchAtom
  cases a.joined? with
  | none => simp
  | some q =>
    by_cases hq : q = path
    · simp [hq, Path.covers]
    · cases best <;> simp [hq]

/-- The last atom with the path, or else the first one below it. -/
theorem byPath_eq (atoms : List (Node α)) (path : String) :
    byPath atoms path = ((atoms.filter fun a => a.joined? == some path).getLast?).or
      (atoms.find? fun a => a.joined?.any (Path.covers path)) := by
  induction atoms using List.reverseRecOn with
  | nil => rfl
  | append_singleton atoms a ih =>
    have hstep : byPath (atoms ++ [a]) path = matchAtom path (byPath atoms path) a := by
      rw [byPath, List.foldl_append]
      rfl
    rw [hstep, ih, matchAtom_eq, List.filter_append, List.find?_append]
    by_cases hexact : (a.joined? == some path) = true
    · rw [if_pos hexact, List.filter_cons, if_pos hexact, List.filter_nil, List.getLast?_append]
      rfl
    · rw [if_neg hexact, List.filter_cons, if_neg hexact, List.filter_nil, List.append_nil,
        Option.or_assoc, List.find?_cons]
      cases a.joined?.any (Path.covers path) <;> rfl

end Operands

/-! ## Both sides alike -/

instance (e : Expr) (q : String) : Decidable (e.HasPath q) :=
  inferInstanceAs (Decidable (∃ n ∈ e.nodes, n.path = some q))

/-- The path of the node is one of the expression. -/
def Node.LiesIn (n : Node α) (e : Expr) : Prop := ∃ q, n.path = some q ∧ e.HasPath q

namespace SurfaceMap

open Operands

section
variable [Coordinate α]

/-- The operand on one side of the operator at a path. -/
def operandOn (t : Tolerances α) (side : Side) (path : String) (m : SurfaceMap α) :
    Option (Node α) :=
  (byPath m.atoms (Path.child path side.step)).or
    ((m.atomsAt path).head?.bind fun operator => side.nearest operator (beside t m.atoms operator))

theorem operands?_eq (t : Tolerances α) {path : String} (hpath : path ≠ "") (m : SurfaceMap α) :
    m.operands? t path = some ⟨m.operandOn t .left path, m.operandOn t .right path⟩ := by
  have hempty : path.isEmpty = false := by simpa using hpath
  rw [operands?, hempty, if_neg Bool.false_ne_true]
  unfold operandOn
  cases (m.atomsAt path).head? with
  | none =>
    rw [Option.bind_none, Option.or_none, Option.bind_none, Option.or_none]
    rfl
  | some operator => rfl

end

/-! ## Atoms by path -/

/-- The atom is the last one with the path, or the first one below it if there is none. -/
def FoundByPath (m : SurfaceMap α) (path : String) (a : Node α) : Prop :=
  IsLast (fun x => x.joined? = some path) m.atoms a ∨
    (∀ x ∈ m.atoms, x.joined? ≠ some path) ∧
      IsFirst (fun x => ∃ q ∈ x.joined?, Path.covers path q = true) m.atoms a

theorem byPath_eq_some_iff {m : SurfaceMap α} {path : String} {a : Node α} :
    byPath m.atoms path = some a ↔ m.FoundByPath path a := by
  rw [byPath_eq, Option.or_eq_some_iff, getLast?_filter_eq_some_iff_isLast,
    List.getLast?_eq_none_iff, List.filter_eq_nil_iff, find?_eq_some_iff_isFirst]
  simp only [beq_iff_eq, Option.any_eq_true]
  rfl

theorem byPath_eq_none_iff {m : SurfaceMap α} {path : String} : byPath m.atoms path = none ↔
    ∀ x ∈ m.atoms, ∀ q ∈ x.joined?, Path.covers path q = false := by
  have hexact : Path.covers path path = true := Path.covers_iff.2 (Or.inl rfl)
  rw [byPath_eq, Option.or_eq_none_iff, List.getLast?_eq_none_iff, List.filter_eq_nil_iff,
    List.find?_eq_none]
  constructor
  · rintro ⟨-, hbelow⟩ x hx q hq
    refine Bool.eq_false_iff.2 fun hcovers => hbelow x hx ?_
    rw [Option.any_eq_true]
    exact ⟨q, hq, hcovers⟩
  · intro hnone
    refine ⟨fun x hx hsame => ?_, fun x hx hany => ?_⟩
    · have hcovers := hnone x hx path (beq_iff_eq.1 hsame)
      rw [hexact] at hcovers
      exact Bool.noConfusion hcovers
    · obtain ⟨q, hq, hcovers⟩ := (Option.any_eq_true _ _).1 hany
      rw [hnone x hx q hq] at hcovers
      exact Bool.false_ne_true hcovers

/-- The first atom with a path. -/
theorem head?_atomsAt_eq_some_iff {m : SurfaceMap α} {operator : Node α} {p : String} :
    (m.atomsAt p).head? = some operator ↔ IsFirst (fun x => x.path = some p) m.atoms operator := by
  rw [atomsAt, List.head?_filter, find?_eq_some_iff_isFirst]
  simp only [beq_iff_eq]

theorem head?_atomsAt_eq_none_iff {m : SurfaceMap α} {p : String} :
    (m.atomsAt p).head? = none ↔ ∀ x ∈ m.atoms, x.path ≠ some p := by
  rw [atomsAt, List.head?_filter, List.find?_eq_none]
  simp only [beq_iff_eq, ne_eq]

/-! ## Nearest atoms -/

/-- Of the candidates beside an operator, the first of those that reach furthest towards it. -/
structure IsNearest [Coordinate α] (m : SurfaceMap α) (t : Tolerances α) (side : Side)
    (operator a : Node α) : Prop where
  candidate : side.Candidate t operator a
  first : ∃ before after, m.atoms = before ++ a :: after ∧
    (∀ x ∈ before, side.Candidate t operator x → side.Nearer a x) ∧
      ∀ x ∈ after, side.Candidate t operator x → ¬side.Nearer x a

section
variable [Coordinate α] {m : SurfaceMap α} {t : Tolerances α} {side : Side} {operator a : Node α}

theorem isNearest_of_nearest [Orders α]
    (h : side.nearest operator (beside t m.atoms operator) = some a) :
    m.IsNearest t side operator a := by
  rw [Side.nearest_eq] at h
  have hholds : ∀ n ∈ m.atoms.filter (side.isCandidate t operator), side.Holds operator n :=
    fun n hn => (Side.isCandidate_iff.1 (List.mem_filter.1 hn).2).holds
  obtain ⟨before, after, hsplit, hbefore, hafter⟩ :=
    exists_split_of_firstLeast_of_mem (side.ranks_nearer hholds) h
  obtain ⟨l, r, hatoms, hl, hr⟩ := List.filter_eq_append_iff.1 hsplit
  obtain ⟨skipped, rest, rfl, hskipped, ha, hrest⟩ := List.filter_eq_cons_iff.1 hr
  refine ⟨Side.isCandidate_iff.1 ha, l ++ skipped, rest, by rw [hatoms, List.append_assoc], ?_, ?_⟩
  · intro x hx hcandidate
    rw [← Side.isCandidate_iff] at hcandidate
    rcases List.mem_append.1 hx with hx | hx
    · have hmem : x ∈ before := hl ▸ List.mem_filter.2 ⟨hx, hcandidate⟩
      exact of_decide_eq_true (hbefore x hmem)
    · exact absurd hcandidate (hskipped x hx)
  · intro x hx hcandidate
    have hmem : x ∈ after := hrest ▸ List.mem_filter.2 ⟨hx, Side.isCandidate_iff.2 hcandidate⟩
    exact of_decide_eq_false (hafter x hmem)

theorem nearest_eq_none_iff : side.nearest operator (beside t m.atoms operator) = none ↔
    ∀ x ∈ m.atoms, ¬side.Candidate t operator x := by
  rw [Side.nearest_eq, firstLeast_eq_none_iff, List.filter_eq_nil_iff]
  exact forall₂_congr fun x _ => by rw [Side.isCandidate_iff]

theorem IsNearest.mem (h : m.IsNearest t side operator a) : a ∈ m.atoms := by
  obtain ⟨before, after, hsplit, -⟩ := h.first
  rw [hsplit]
  simp

theorem IsNearest.unique {b : Node α} (ha : m.IsNearest t side operator a)
    (hb : m.IsNearest t side operator b) : a = b := by
  obtain ⟨before, after, hsplit, hbefore, hafter⟩ := ha.first
  obtain ⟨before', after', hsplit', hbefore', hafter'⟩ := hb.first
  -- were they apart, the one that comes first would be and not be the nearer one
  rw [hsplit, List.append_eq_append_iff] at hsplit'
  rcases hsplit' with ⟨_ | ⟨c, more⟩, hfront, hback⟩ | ⟨_ | ⟨c, more⟩, hfront, hback⟩
  · exact (List.cons.inj hback).1
  · obtain ⟨rfl, hmore⟩ := List.cons.inj hback
    refine absurd (hbefore' a (by rw [hfront]; simp) ha.candidate) (hafter b ?_ hb.candidate)
    rw [hmore]
    simp
  · exact (List.cons.inj hback).1.symm
  · obtain ⟨rfl, hmore⟩ := List.cons.inj hback
    refine absurd (hbefore b (by rw [hfront]; simp) hb.candidate) (hafter' a ?_ ha.candidate)
    rw [hmore]
    simp

theorem nearest_eq_some_iff [Orders α] : side.nearest operator (beside t m.atoms operator) = some a ↔
    m.IsNearest t side operator a := by
  refine ⟨isNearest_of_nearest, fun ha => ?_⟩
  cases hb : side.nearest operator (beside t m.atoms operator) with
  | none => exact absurd ha.candidate (nearest_eq_none_iff.1 hb a ha.mem)
  | some b => rw [(isNearest_of_nearest hb).unique ha]

end

/-! ## Operands of an expression -/

theorem joined?_of_path {m : SurfaceMap α} {e : Expr}
    (hids : ∀ a ∈ m.atoms, ∀ q ∈ a.path, e.assignPaths.HasPath q)
    {a : Node α} (ha : a ∈ m.atoms) : a.joined? = a.path := by
  cases hpath : a.path with
  | none => rw [Node.joined?, hpath, Option.filter_none]
  | some q =>
    obtain ⟨n, hn, hq⟩ := hids a ha q hpath
    have hne := Expr.ne_empty_of_mem_nodes hn hq
    rw [Node.joined?, hpath, Option.filter_some, if_pos (by simpa using hne)]

/-- What is found on a side of the operation at `p`, where the operand is `sub`: the last atom
with its path; or the first below it; or, beside the first atom with the path of the
operation, the nearest one; or nothing. -/
inductive FindsOperand [Coordinate α] (m : SurfaceMap α) (t : Tolerances α) (p : String) (side : Side)
    (sub : Expr) : Option (Node α) → Prop
  | exact {a : Node α} (ha : IsLast (fun x => x.path = sub.path) m.atoms a) :
      FindsOperand m t p side sub (some a)
  | below {a : Node α} (hexact : ∀ x ∈ m.atoms, x.path ≠ sub.path)
      (ha : IsFirst (fun x => x.LiesIn sub) m.atoms a) : FindsOperand m t p side sub (some a)
  | nearest {operator a : Node α} (houtside : ∀ x ∈ m.atoms, ¬x.LiesIn sub)
      (hoperator : IsFirst (fun x => x.path = some p) m.atoms operator)
      (ha : m.IsNearest t side operator a) : FindsOperand m t p side sub (some a)
  | alone {operator : Node α} (houtside : ∀ x ∈ m.atoms, ¬x.LiesIn sub)
      (hoperator : IsFirst (fun x => x.path = some p) m.atoms operator)
      (hnone : ∀ x ∈ m.atoms, ¬side.Candidate t operator x) : FindsOperand m t p side sub none
  | unplaced (houtside : ∀ x ∈ m.atoms, ¬x.LiesIn sub)
      (hnone : ∀ x ∈ m.atoms, x.path ≠ some p) : FindsOperand m t p side sub none

section
variable [Coordinate α] {m : SurfaceMap α} {e l r : Expr} {o : BinaryOperation} {p : String}

theorem child?_step (side : Side) (o : BinaryOperation) (l r : Expr) (p : Option String) :
    (Expr.binary o l r p).child? side.step = some (side.operand l r) := by
  cases side <;> rfl

theorem findsOperand [Orders α] (t : Tolerances α)
    (hids : ∀ a ∈ m.atoms, ∀ q ∈ a.path, e.assignPaths.HasPath q)
    (hnode : .binary o l r (some p) ∈ e.assignPaths.nodes) (side : Side) :
    m.FindsOperand t p side (side.operand l r) (m.operandOn t side p) := by
  have hchild := child?_step side o l r (some p)
  have hpath := Expr.path_of_child? hnode rfl hchild
  have hexact : ∀ x ∈ m.atoms, x.joined? = some (Path.child p side.step) ↔
      x.path = (side.operand l r).path := by
    intro x hx
    rw [joined?_of_path hids hx, hpath]
  have hbelow : ∀ x ∈ m.atoms, (∃ q ∈ x.joined?, Path.covers (Path.child p side.step) q = true) ↔
      x.LiesIn (side.operand l r) := by
    intro x hx
    rw [joined?_of_path hids hx]
    refine exists_congr fun q => and_congr_right fun hq => ?_
    exact Expr.covers_child_iff hnode rfl hchild (hids x hx q hq)
  rw [operandOn]
  cases hfound : byPath m.atoms (Path.child p side.step) with
  | some a =>
    rw [Option.some_or]
    rcases byPath_eq_some_iff.1 hfound with hlast | ⟨hnone, hfirst⟩
    · exact .exact (hlast.congr hexact)
    · exact .below (fun x hx hsame => hnone x hx ((hexact x hx).2 hsame)) (hfirst.congr hbelow)
  | none =>
    have houtside : ∀ x ∈ m.atoms, ¬x.LiesIn (side.operand l r) := by
      intro x hx hin
      obtain ⟨q, hq, hcovers⟩ := (hbelow x hx).2 hin
      rw [byPath_eq_none_iff.1 hfound x hx q hq] at hcovers
      exact Bool.false_ne_true hcovers
    rw [Option.none_or]
    cases hoperator : (m.atomsAt p).head? with
    | none => exact .unplaced houtside (head?_atomsAt_eq_none_iff.1 hoperator)
    | some operator =>
      have hcarrier := head?_atomsAt_eq_some_iff.1 hoperator
      rw [Option.bind_some]
      cases hnearest : side.nearest operator (beside t m.atoms operator) with
      | none => exact .alone houtside hcarrier (nearest_eq_none_iff.1 hnearest)
      | some a => exact .nearest houtside hcarrier (nearest_eq_some_iff.1 hnearest)

/-- The paths that the path of an operand covers are those of its subtree, and the operands of
an operation are looked for there. -/
theorem operands_of_binary [Orders α] (t : Tolerances α)
    (hids : ∀ a ∈ m.atoms, ∀ q ∈ a.path, e.assignPaths.HasPath q)
    (hnode : .binary o l r (some p) ∈ e.assignPaths.nodes) :
    (∀ side : Side, (side.operand l r).path = some (Path.child p side.step) ∧
      ∀ q, e.assignPaths.HasPath q →
        (Path.covers (Path.child p side.step) q = true ↔ (side.operand l r).HasPath q)) ∧
    ∃ pair, m.operands? t p = some pair ∧
      ∀ side : Side, m.FindsOperand t p side (side.operand l r) (side.found pair) := by
  refine ⟨fun side => ?_, _, operands?_eq t (Expr.ne_empty_of_mem_nodes hnode rfl) m, ?_⟩
  · have hchild := child?_step side o l r (some p)
    exact ⟨Expr.path_of_child? hnode rfl hchild, fun q => Expr.covers_child_iff hnode rfl hchild⟩
  · intro side
    have hfound := findsOperand t hids hnode side
    cases side <;> exact hfound

end

/-- The product of one and two, and three. -/
def productSum : Expr :=
  .binary .add (.binary .multiply (.numeral "1" none) (.numeral "2" none) none)
    (.numeral "3" none) none

/-- The sum typeset with a letter for the three. -/
def productSumLayout : Layout Rat :=
  let page : Box Rat := ⟨0, 0, 50, 10⟩
  .node ⟨["katex"], "", page, []⟩ [.node ⟨[formulaClass], "", page, []⟩
    [.node ⟨[groupClass], "", page, []⟩
      [.node ⟨["mord"], "1", ⟨0, 0, 10, 10⟩, []⟩ [],
       .node ⟨["mbin"], "×", ⟨10, 0, 20, 10⟩, []⟩ [],
       .node ⟨["mord"], "2", ⟨20, 0, 30, 10⟩, []⟩ [],
       .node ⟨["mbin"], "+", ⟨30, 0, 40, 10⟩, []⟩ [],
       .node ⟨["mord"], "x", ⟨40, 0, 50, 10⟩, []⟩ []]]]

/-- The map of the layout, joined to the sum. -/
def productSumMap : SurfaceMap Rat :=
  (((build .standard [] productSumLayout).enhance .standard).join .standard
    productSum.assignPaths).1

/-- The path of the product is that of its sign; the letter has no path, but stands beside the
plus. -/
theorem productSumMap_operands : (∀ a ∈ productSumMap.atoms, ∀ q ∈ a.path,
    productSum.assignPaths.HasPath q) ∧ ∃ l r, .binary .add l r (some "root") ∈
      productSum.assignPaths.nodes ∧ ∃ pair, productSumMap.operands? .standard "root" = some pair ∧
        (pair.left.map (·.text) = some "×" ∧ pair.right.map (·.text) = some "x") ∧
          ∀ side : Side, productSumMap.FindsOperand .standard "root" side (side.operand l r)
            (side.found pair) := by
  have hids : ∀ a ∈ productSumMap.atoms, ∀ q ∈ a.path, productSum.assignPaths.HasPath q := by
    decide +kernel
  have hnode : .binary .add (.binary .multiply (.numeral "1" "term[0].term[0]")
      (.numeral "2" "term[0].term[1]") "term[0]") (.numeral "3" "term[1]") (some "root") ∈
        productSum.assignPaths.nodes := by
    decide +kernel
  have htexts : ∀ pair ∈ productSumMap.operands? .standard "root",
      pair.left.map (·.text) = some "×" ∧ pair.right.map (·.text) = some "x" := by
    decide +kernel
  obtain ⟨-, pair, hpair, hfinds⟩ := operands_of_binary .standard hids hnode
  exact ⟨hids, _, _, hnode, pair, hpair, htexts pair hpair, hfinds⟩

end SurfaceMap
end FormulaMap

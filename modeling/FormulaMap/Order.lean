/-
Sorting and choosing by a test `less`.

`sortBy` keeps the run at the front of a list and puts every further item in its
place, which it finds by halving.  It is stable: of two items neither of which is
less than the other, the one that came first stays first.  `firstLeast` gives
the first of the least items.  Nothing is asked of the test, and the items that
are compared are fixed, so both have a definite result for coordinates that
cannot be compared as well.
-/

namespace FormulaMap

variable {α : Type}

/-! ## Putting an item in its place -/

theorem length_half_lt {ys : List α} {y : α} {after : List α}
    (h : ys.drop (ys.length / 2) = y :: after) : ys.length / 2 < ys.length := by
  have hlen := congrArg List.length h
  simp only [List.length_drop, List.length_cons] at hlen
  omega

theorem length_after_lt {ys : List α} {y : α} {after : List α}
    (h : ys.drop (ys.length / 2) = y :: after) : after.length < ys.length := by
  have hlen := congrArg List.length h
  simp only [List.length_drop, List.length_cons] at hlen
  omega

/-- Puts an item into a sorted list, behind the items that it is not less than. -/
def insertBy (less : α → α → Bool) (x : α) (ys : List α) : List α :=
  match _h : ys.drop (ys.length / 2) with
  | [] => [x]
  | y :: after =>
    if less x y then insertBy less x (ys.take (ys.length / 2)) ++ y :: after
    else ys.take (ys.length / 2) ++ y :: insertBy less x after
  termination_by ys.length
  decreasing_by
    · have := length_half_lt _h
      simp only [List.length_take]
      omega
    · exact length_after_lt _h

/-! ## Runs -/

/-- The items from `x` on as long as each is followed by one that may follow it, and
the rest. -/
def runFrom (mayFollow : α → α → Bool) (x : α) : List α → List α × List α
  | [] => ([x], [])
  | y :: ys =>
    if mayFollow x y then
      let (run, rest) := runFrom mayFollow y ys
      (x :: run, rest)
    else ([x], y :: ys)

/-- The run at the front of a list, in ascending order, and the rest.  A run that
descends is one in which every item is less than the one before it. -/
def firstRun (less : α → α → Bool) : List α → List α × List α
  | [] => ([], [])
  | [x] => ([x], [])
  | x :: y :: ys =>
    if less y x then
      let (run, rest) := runFrom (fun a b => less b a) x (y :: ys)
      (run.reverse, rest)
    else runFrom (fun a b => !less b a) x (y :: ys)

def sortBy (less : α → α → Bool) (xs : List α) : List α :=
  let (run, rest) := firstRun less xs
  rest.foldl (fun sorted x => insertBy less x sorted) run

/-! ## Choosing -/

/-- The best item so far, after one more has been seen. -/
def better (less : α → α → Bool) (best : Option α) (x : α) : Option α :=
  match best with
  | none => some x
  | some b => if less x b then some x else some b

def firstLeast (less : α → α → Bool) (xs : List α) : Option α :=
  xs.foldl (better less) none

/-! ## Nothing is lost -/

theorem insertBy_perm (less : α → α → Bool) (x : α) (ys : List α) :
    (insertBy less x ys).Perm (x :: ys) := by
  fun_induction insertBy less x ys with
  | case1 ys h =>
    have hlen := congrArg List.length h
    simp only [List.length_drop, List.length_nil] at hlen
    have hnil : ys = [] := List.length_eq_zero_iff.1 (by omega)
    rw [hnil]
  | case2 ys y after h _ ih =>
    have hsplit : ys.take (ys.length / 2) ++ y :: after = ys := by
      rw [← h]
      exact List.take_append_drop _ _
    calc insertBy less x (ys.take (ys.length / 2)) ++ y :: after
      _ |>.Perm ((x :: ys.take (ys.length / 2)) ++ y :: after) := ih.append_right _
      _ = x :: ys := by rw [List.cons_append, hsplit]
  | case3 ys y after h _ ih =>
    have hsplit : ys.take (ys.length / 2) ++ y :: after = ys := by
      rw [← h]
      exact List.take_append_drop _ _
    calc ys.take (ys.length / 2) ++ y :: insertBy less x after
      _ |>.Perm (ys.take (ys.length / 2) ++ y :: x :: after) := (ih.cons y).append_left _
      _ |>.Perm (ys.take (ys.length / 2) ++ x :: y :: after) :=
        (List.Perm.swap x y after).append_left _
      _ |>.Perm (x :: (ys.take (ys.length / 2) ++ y :: after)) := List.perm_middle
      _ = x :: ys := by rw [hsplit]

theorem runFrom_append (mayFollow : α → α → Bool) (x : α) (ys : List α) :
    (runFrom mayFollow x ys).1 ++ (runFrom mayFollow x ys).2 = x :: ys := by
  induction ys generalizing x with
  | nil => rfl
  | cons y ys ih =>
    rw [runFrom]
    split
    · exact congrArg (x :: ·) (ih y)
    · rfl

theorem firstRun_perm (less : α → α → Bool) (xs : List α) :
    ((firstRun less xs).1 ++ (firstRun less xs).2).Perm xs := by
  match xs with
  | [] => exact List.Perm.refl _
  | [x] => exact List.Perm.refl _
  | x :: y :: ys =>
    rw [firstRun]
    split
    · have h := runFrom_append (fun a b => less b a) x (y :: ys)
      exact ((List.reverse_perm _).append_right _).trans (List.Perm.of_eq h)
    · exact List.Perm.of_eq (runFrom_append _ x (y :: ys))

theorem foldl_insertBy_perm (less : α → α → Bool) (rest run : List α) :
    (rest.foldl (fun sorted x => insertBy less x sorted) run).Perm (run ++ rest) := by
  induction rest generalizing run with
  | nil => rw [List.append_nil, List.foldl_nil]
  | cons x rest ih =>
    rw [List.foldl_cons]
    exact (ih _).trans (((insertBy_perm less x run).append_right rest).trans List.perm_middle.symm)

theorem sortBy_perm (less : α → α → Bool) (xs : List α) : (sortBy less xs).Perm xs :=
  (foldl_insertBy_perm less _ _).trans (firstRun_perm less xs)

end FormulaMap

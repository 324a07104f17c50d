/-
Sets of characters given by ranges of code points.

The Unicode properties that the formula language depends on (white space, digits,
letters, printable characters) are finite unions of ranges.  A `CharSet` lists
the ranges in increasing order, and membership is the test of one range after
another, so that a statement about a property is a statement about its list.
-/

namespace FormulaMap

/-- Inclusive ranges of code points, in increasing order. -/
abbrev CharSet := List (Nat × Nat)

namespace CharSet

def has (s : CharSet) (c : Char) : Bool :=
  s.any fun r => Nat.ble r.1 c.toNat && Nat.ble c.toNat r.2

theorem has_iff (s : CharSet) (c : Char) :
    s.has c = true ↔ ∃ r ∈ s, r.1 ≤ c.toNat ∧ c.toNat ≤ r.2 := by
  simp [has, List.any_eq_true]

/-- Two sets of ranges no two of which meet share no character. -/
def apart (s t : CharSet) : Bool :=
  s.all fun r => t.all fun q => Nat.blt r.2 q.1 || Nat.blt q.2 r.1

theorem not_has_of_apart {s t : CharSet} (h : s.apart t = true) {c : Char}
    (hs : s.has c = true) : t.has c = false := by
  rw [has_iff] at hs
  obtain ⟨r, hr, hlo, hhi⟩ := hs
  cases ht : t.has c with
  | false => rfl
  | true =>
    rw [has_iff] at ht
    obtain ⟨q, hq, qlo, qhi⟩ := ht
    have := List.all_eq_true.1 (List.all_eq_true.1 h r hr) q hq
    simp [Nat.blt_eq] at this
    omega

end CharSet

/-- What holds of every member of a list is checked on the list. -/
theorem Text.forall_mem_of_all {P : Char → Prop} [DecidablePred P] {cs : List Char}
    (h : cs.all (fun c => decide (P c)) = true) : ∀ c ∈ cs, P c :=
  fun c hc => of_decide_eq_true (List.all_eq_true.1 h c hc)

end FormulaMap

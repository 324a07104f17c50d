/-
Reading always makes progress.

`walk_progress` is about every row of tokens and every place in it.  The walk over any
phrase has an outcome, the same at every depth from `bound` on; the cursor was never
before the place where it started nor behind the end of the row; a node that the phrase
was not given took a token; and a fraction that makes no mixed number leaves the cursor
where it found it.  The rounds of the two loops are phrases of their own
(`Phrase.tail`), so the loops end as well, and so does the walk over a whole row.

Nothing is asked of the tokens.  A fault ends a walk like any other outcome, and a
fraction may be read, given back and read again at every level of a nest of them.
-/
import FormulaMap.Proofs.Formula.Walks

namespace FormulaMap
namespace Parser

/-! ## What a node takes -/

/-- What a phrase has before it takes a token: the rounds of a loop go on from an operand
that was read before. -/
def Phrase.given : Phrase → Option Expr
  | .tail _ left => left
  | _ => none

theorem given_operand (additive : Bool) : (Phrase.operand additive).given = none := by
  cases additive <;> rfl

/-- A node is given or it takes a token. -/
theorem Reads.takes {count : Nat} {p : Phrase} {ts rest : List Token} {n : Option Expr}
    {ws : List ParseWarning} (h : Reads count p ts n rest ws) :
    ∀ e, n = some e → p.given = some e ∨ rest.length < ts.length := by
  induction h with
  | @chain additive _ _ _ _ _ _ _ hfirst hmore ihfirst ihmore =>
    intro e hn
    have hle := hmore.suffix.length_le
    rcases ihmore e hn with hleft | hlt
    · rcases ihfirst e hleft with hgiven | hlt
      · rw [given_operand] at hgiven
        cases hgiven
      · exact .inr (Nat.lt_of_le_of_lt hle hlt)
    · exact .inr (Nat.lt_of_lt_of_le hlt hfirst.suffix.length_le)
  | stop _ => exact fun e hn => .inl hn
  | fail _ _ _ _ => exact fun e hn => nomatch hn
  | more _ hright hmore _ _ =>
    have hle := (hmore.suffix.trans hright.suffix).length_le
    exact fun e _ => .inr (Nat.lt_succ_of_le hle)
  | mixedToken _ _ => exact fun e _ => .inr (Nat.lt_succ_self _)
  | numeral _ _ _ => exact fun e _ => .inr (Nat.lt_succ_self _)
  | mixed _ _ hnum hden _ _ _ _ _ =>
    have hle := (hden.suffix.trans hnum.suffix).length_le
    exact fun e _ => .inr (Nat.lt_succ_of_le (Nat.le_succ_of_le hle))
  | givenBack _ _ _ _ _ _ _ _ => exact fun e _ => .inr (Nat.lt_succ_self _)
  | bracketed _ hinner hclose _ =>
    have hle := (hclose.suffix.trans hinner.suffix).length_le
    exact fun e _ => .inr (Nat.lt_succ_of_le hle)
  | signed _ _ harg _ => exact fun e _ => .inr (Nat.lt_succ_of_le harg.suffix.length_le)
  | fraction _ hnum hden _ _ =>
    have hle := (hden.suffix.trans hnum.suffix).length_le
    exact fun e _ => .inr (Nat.lt_succ_of_le hle)
  | nothing _ => exact fun e hn => nomatch hn
  | braced _ hinner hclose _ =>
    have hle := (hclose.suffix.trans hinner.suffix).length_le
    exact fun e _ => .inr (Nat.lt_succ_of_le hle)
  | unbraced _ _ ih => exact ih

/-- The attempt at a mixed number takes tokens for one, or it leaves them all. -/
theorem attempt_cases {count : Nat} {whole : String} {ts : List Token} {s : Step ts}
    (h : attempt count whole ts = .ok s) :
    (s.node = none ∧ s.rest = ts) ∨ (s.node ≠ none ∧ s.rest.length < ts.length) := by
  unfold attempt at h
  obtain ⟨n, hn, h⟩ := exists_of_bind_eq_ok h
  obtain ⟨d, hd, h⟩ := exists_of_bind_eq_ok h
  dsimp only at h
  split at h
  · next a b ha hb =>
    obtain ⟨e, he, h⟩ := exists_of_bind_eq_ok h
    cases h
    have hnum : Reads count .group ts.tail n.node n.rest n.warnings :=
      described count .group ts.tail n hn
    have hsome : n.node ≠ none := by
      intro hnone
      rw [hnone] at ha
      cases ha
    obtain ⟨m, hm⟩ := Option.ne_none_iff_exists'.1 hsome
    have hlt : n.rest.length < ts.tail.length := by
      simpa [Phrase.given] using hnum.takes m hm
    refine .inr ⟨Option.some_ne_none e, ?_⟩
    exact Nat.lt_of_le_of_lt d.length_le (Nat.lt_of_lt_of_le hlt (List.tail_suffix ts).length_le)
  · cases h
    exact .inl ⟨rfl, rfl⟩

/-! ## How a walk ends -/

section
variable {tokens ts : List Token} {c c' : Cursor} {y : Except NodeFault (Step ts)}
  {r : Except NodeFault (Option Expr)}

theorem Agrees.ends {o : Option (Except NodeFault (Option Expr) × Cursor)}
    (h : Agrees tokens c y o) : ∃ outcome, o = some outcome := by
  cases h with
  | ok _ => exact ⟨_, rfl⟩
  | error _ => exact ⟨_, rfl⟩

theorem Agrees.within (h : Agrees tokens c y (some (r, c'))) : c.Within tokens c' := by
  cases h with
  | ok h => exact h.within
  | error h => exact h

/-- The cursor stands where the reader stopped. -/
theorem Agrees.of_ok {n : Option Expr} (h : Agrees tokens c y (some (.ok n, c'))) :
    ∃ s, y = .ok s ∧ s.node = n ∧ c'.At tokens s.rest := by
  cases h with
  | @ok s _ h => exact ⟨s, rfl, rfl, h.stands⟩

end

/-- The depth at which every walk from `c` has ended. -/
def bound (tokens : List Token) (c : Cursor) : Nat := 8 * (tokens.length - c.place) + 8

/-- What a walk from `c` does, whatever depth it is allowed; `y` is what the reader makes of
the tokens from `c` on. -/
structure Proceeds (tokens : List Token) (c : Cursor) {ts : List Token}
    (y : Except NodeFault (Step ts)) (given : Option Expr) (walk : Nat → Walk (Option Expr)) :
    Prop where
  ends : ∃ outcome, ∀ n, bound tokens c ≤ n → walk n c = some outcome
  agrees : ∀ n outcome, walk n c = some outcome → Agrees tokens c y (some outcome)
  /-- The cursor is at no time before its start or behind the end of the row. -/
  within : ∀ n r c', walk n c = some (r, c') → c.Within tokens c'
  takes : ∀ n e c', walk n c = some (.ok (some e), c') → given = some e ∨ c.place < c'.place

/-! ## Every walk -/

section
variable {tokens ts : List Token} {c c' : Cursor} {y : Except NodeFault (Step ts)}
  {given : Option Expr} {walk : Nat → Walk (Option Expr)} {n : Nat}

theorem proceeds_of_agrees (hc : c.At tokens ts) (hdeeper : ∀ n m, n ≤ m → Extends (walk n) (walk m))
    (h : ∀ n, bound tokens c ≤ n → Agrees tokens c y (walk n c))
    (htakes : ∀ s e, y = .ok s → s.node = some e → given = some e ∨ s.rest.length < ts.length) :
    Proceeds tokens c y given walk := by
  have hagrees : ∀ n outcome, walk n c = some outcome → Agrees tokens c y (some outcome) := by
    intro n outcome heq
    have hdeep := h (max n (bound tokens c)) (Nat.le_max_right _ _)
    rwa [hdeeper n _ (Nat.le_max_left _ _) c outcome heq] at hdeep
  refine ⟨?_, hagrees, fun n r c' heq => (hagrees n _ heq).within, fun n e c' heq => ?_⟩
  · obtain ⟨outcome, heq⟩ := (h _ (Nat.le_refl _)).ends
    exact ⟨outcome, fun n hn => hdeeper _ n hn c outcome heq⟩
  · obtain ⟨s, hs, hnode, hrest⟩ := (hagrees n _ heq).of_ok
    have hstart := hc.place_add
    have hend := hrest.place_add
    exact (htakes s e hs hnode).imp_right fun hlt => by omega

theorem agrees_run_of_bound_le (hc : c.At tokens ts) (hn : bound tokens c ≤ n) (p : Phrase) :
    Agrees tokens c (p.read tokens.length ts) (run tokens n p c) := by
  refine agrees_run tokens n p ts c ?_ hc
  have hplace := hc.place_add
  have hdepth := depth_le p ts
  unfold bound at hn
  omega

theorem proceeds_run (hc : c.At tokens ts) (p : Phrase) :
    Proceeds tokens c (p.read tokens.length ts) p.given fun n => run tokens n p := by
  refine proceeds_of_agrees hc (fun n m hnm => extends_run hnm p)
    (fun n hn => agrees_run_of_bound_le hc hn p) fun s e hs hnode => ?_
  exact (described tokens.length p ts s hs).takes e hnode

theorem proceeds_mixedFraction (hc : c.At tokens ts) (whole : String) :
    Proceeds tokens c (attempt tokens.length whole ts) none
      fun n => mixedFraction tokens (run tokens n) whole := by
  refine proceeds_of_agrees hc
    (fun n m hnm => extends_mixedFraction (fun p => extends_run hnm p) whole)
    (fun n hn => ?_) fun s e hs hnode => ?_
  · refine agrees_mixedFraction (fun q us c' hlt => agrees_run tokens n q us c' ?_) hc whole
    have hplace := hc.place_add
    unfold bound at hn
    omega
  · rcases attempt_cases hs with ⟨hnone, -⟩ | ⟨-, hlt⟩
    · rw [hnode] at hnone
      cases hnone
    · exact .inr hlt

/-- An attempt that fails leaves the cursor where it found it. -/
theorem place_of_mixedFraction (hc : c.At tokens ts) {whole : String}
    (h : mixedFraction tokens (run tokens n) whole c = some (.ok none, c')) :
    c'.place = c.place := by
  obtain ⟨s, hs, hnode, hrest⟩ := ((proceeds_mixedFraction hc whole).agrees n _ h).of_ok
  rcases attempt_cases hs with ⟨-, heq⟩ | ⟨hne, -⟩
  · have hstart := hc.place_add
    have hend := hrest.place_add
    rw [heq] at hend
    omega
  · exact absurd hnode hne

end

theorem parsed_of_leaves {tokens : List Token} {c : Cursor} {s : Step tokens}
    (h : (Cursor.start 0).Leaves tokens c s.rest s.warnings) :
    parsed tokens (.ok s.node, c) = Parsed.ofStep tokens.length s := by
  have hplace := h.stands.place_add
  have hwarnings : c.warnings = s.warnings := h.warnings
  rw [Parsed.ofStep]
  cases s.node with
  | none => rw [parsed, hwarnings]
  | some e =>
    rw [parsed, hwarnings]
    cases hrest : s.rest with
    | nil =>
      rw [hrest, List.length_nil] at hplace
      rw [if_neg (by omega)]
      rfl
    | cons t more =>
      rw [hrest, List.length_cons] at hplace
      rw [if_pos (by omega), List.length_cons, ← hplace, Nat.add_sub_cancel]
      rfl

/-- The walk over a whole row makes of it what the reader does. -/
theorem parse_eq {tokens : List Token} {n : Nat} (hn : bound tokens (.start 0) ≤ n) :
    parse tokens n = some (Parsed.ofTokens tokens) := by
  have hagrees := agrees_run_of_bound_le (Cursor.at_start tokens) hn (.chain true)
  rw [parse, Parsed.ofTokens]
  rw [Phrase.read] at hagrees
  generalize run tokens n (.chain true) (.start 0) = o at hagrees ⊢
  generalize sum tokens.length tokens = y at hagrees ⊢
  cases hagrees with
  | ok h => exact congrArg some (parsed_of_leaves h)
  | error _ => rfl

/-- What the reader promises of every row of tokens. -/
structure Progress (tokens : List Token) : Prop where
  /-- Sums, products, primaries, groups and the rounds of both loops, from every place. -/
  phrase : ∀ (c : Cursor) (p : Phrase), c.place ≤ tokens.length →
    Proceeds tokens c (p.read tokens.length (tokens.drop c.place)) p.given
      fun n => run tokens n p
  /-- The attempt at a mixed number, from every place. -/
  fraction : ∀ (c : Cursor) (whole : String), c.place ≤ tokens.length →
    Proceeds tokens c (attempt tokens.length whole (tokens.drop c.place)) none
      fun n => mixedFraction tokens (run tokens n) whole
  /-- A fraction that makes no mixed number has the cursor again. -/
  givenBack : ∀ (c c' : Cursor) (whole : String) (n : Nat), c.place ≤ tokens.length →
    mixedFraction tokens (run tokens n) whole c = some (.ok none, c') → c'.place = c.place
  /-- The whole row, of which the walk makes what the reader does. -/
  row : ∀ n, bound tokens (.start 0) ≤ n → parse tokens n = some (Parsed.ofTokens tokens)

/-- Every walk over a row of tokens ends, keeps its cursor between its start and the end of
the row, and takes a token for every node that it makes. -/
theorem walk_progress (tokens : List Token) : Progress tokens where
  phrase _ p hc := proceeds_run (Cursor.at_drop hc) p
  fraction _ whole hc := proceeds_mixedFraction (Cursor.at_drop hc) whole
  givenBack _ _ _ _ hc h := place_of_mixedFraction (Cursor.at_drop hc) h
  row _ hn := parse_eq hn

/-- A fraction in a fraction, and neither makes a mixed number. -/
def nested : List Token := Token.fuse (Token.ofString "1\\frac\x7b2\\frac\x7b3\x7d\x7b\x7d\x7d\x7b4\x7d")

/-- From the inner fraction the attempt at a mixed number ends with the cursor there. -/
theorem walk_progress_nested :
    (Cursor.start 4).place ≤ nested.length ∧
      ∃ r c', mixedFraction nested (run nested (bound nested (.start 4))) "2" (.start 4) =
          some (r, c') ∧
        (Cursor.start 4).Within nested c' ∧ (r = .ok none → c'.place = 4) := by
  have hplace : (Cursor.start 4).place ≤ nested.length := by decide +kernel
  have h := (walk_progress nested).fraction (.start 4) "2" hplace
  obtain ⟨⟨r, c'⟩, hends⟩ := h.ends
  have heq := hends _ (Nat.le_refl _)
  refine ⟨hplace, r, c', heq, h.within _ r c' heq, ?_⟩
  rintro rfl
  exact (walk_progress nested).givenBack (.start 4) c' "2" _ hplace heq

/-- The inner fraction is tried with the number before it and given back, and then read
again as the denominator of the outer one, which is given back too. -/
example :
    (run nested 120 (.chain true) (.start 0)).map (fun o => o.2.visited) =
      some [1, 2, 3, 4, 5, 6, 7, 8, 9, 10, 4, 5, 6, 7, 8, 9, 10, 1] := by
  decide +kernel

end Parser
end FormulaMap

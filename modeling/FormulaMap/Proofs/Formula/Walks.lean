/-
Walks with a cursor agree with the reader.

`agrees_run` says that from every place a walk has an outcome at every depth above
`depth`, which is linear in the tokens that are left, and that it is the outcome of the
reader.  The cursor is not monotone, but what a call needs is bounded by the tokens at
its own start: `agrees_body` shows for each phrase that the calls that it makes start
where less is left, or at the same place with a phrase that needs less.

`extends_run` says that a walk that has an outcome has the same at every greater depth.
-/
import FormulaMap.Proofs.Formula.Cursor

namespace FormulaMap
namespace Parser

/-! ## Agreement with the reader -/

/-- A walk from `c` ended as the reader did on the tokens from `c` on. -/
inductive Agrees (tokens : List Token) (c : Cursor) {ts : List Token} :
    Except NodeFault (Step ts) → Option (Except NodeFault (Option Expr) × Cursor) → Prop where
  | ok {s : Step ts} {c' : Cursor} :
      c.Leaves tokens c' s.rest s.warnings → Agrees tokens c (.ok s) (some (.ok s.node, c'))
  | error {f : NodeFault} {c' : Cursor} :
      c.Within tokens c' → Agrees tokens c (.error f) (some (.error f, c'))

section
variable {tokens ts us rest : List Token} {ws : List ParseWarning} {c₀ c : Cursor}
  {x : Walk (Option Expr)} {y : Except NodeFault (Step ts)}

theorem agrees_return {hlength : rest.length ≤ us.length} (h : c₀.Leaves tokens c rest ws)
    (n : Option Expr) :
    Agrees tokens c₀ (.ok (⟨n, rest, ws, hlength⟩ : Step us)) (some (.ok n, c)) :=
  .ok (s := ⟨n, rest, ws, hlength⟩) h

/-- What comes after a step that agrees has to agree after it. -/
theorem Agrees.bind (h : Agrees tokens c y (x c)) (hc : c₀.Leaves tokens c rest ws)
    {g : Step ts → Except NodeFault (Step us)} {f : Option Expr → Walk (Option Expr)}
    (hf : ∀ s c', c₀.Leaves tokens c' s.rest (ws ++ s.warnings) →
      Agrees tokens c₀ (g s) (f s.node c')) :
    Agrees tokens c₀ (y >>= g) ((x >>= f) c) := by
  generalize hx : x c = o at h
  cases h with
  | ok hs =>
    rw [bind_walk_ok hx]
    exact hf _ _ (hc.trans hs)
  | error hs =>
    rw [bind_walk_error hx]
    exact .error (hc.within.trans hs)

/-- The last step of a walk, seen from its start. -/
theorem Agrees.after (h : Agrees tokens c y (x c)) (hc : c₀.Leaves tokens c ts ws)
    (hlength : ts.length ≤ us.length) :
    Agrees tokens c₀ (y >>= fun s => (pure (s.after ws hlength) : Except NodeFault (Step us)))
      (x c) := by
  generalize x c = o at h ⊢
  cases h with
  | ok hs => exact .ok (s := Step.after _ ws hlength) (hc.trans hs)
  | error hs => exact .error (hc.within.trans hs)

/-- A node is made where the cursor stands, or its text is at fault. -/
theorem agrees_made {hlength : rest.length ≤ us.length} (h : c₀.Leaves tokens c rest ws)
    (made : Except NodeFault Expr) :
    Agrees tokens c₀
      (made >>= fun e => (pure (⟨some e, rest, ws, hlength⟩ : Step us) : Except NodeFault (Step us)))
      ((do return some (← made) : Walk (Option Expr)) c) := by
  cases made with
  | ok e => exact agrees_return h (some e)
  | error f => exact .error h.within

/-- A step over the token under the cursor takes none behind the end of the row. -/
theorem exists_pop (h : c₀.Leaves tokens c ts ws) :
    ∃ c', pop tokens c = some (.ok (), c') ∧ c₀.Leaves tokens c' ts.tail ws := by
  cases ts with
  | nil => exact ⟨c, pop_eq_nil h.stands, h⟩
  | cons t ts => exact ⟨_, pop_eq h.stands, h.step⟩

theorem expect_of_closes {kind : TokenKind} {bracket : String} {ws' : List ParseWarning}
    (hcloses : Closes tokens.length kind bracket ts rest ws') (h : c₀.Leaves tokens c ts ws) :
    ∃ c', expect tokens kind bracket c = some (.ok (), c') ∧
      c₀.Leaves tokens c' rest (ws ++ ws') := by
  rw [expect, bind_walk_ok (sees_eq h.stands kind)]
  cases hcloses with
  | @found t _ hk =>
    rw [List.head?_cons, Option.any_some, beq_iff_eq.2 hk, List.append_nil]
    exact ⟨_, pop_eq h.stands, h.step⟩
  | missing hne =>
    have hmissing : (ts.head?.any fun t => t.kind == kind) = false := by
      cases ts with
      | nil => rfl
      | cons t ts => exact beq_eq_false_iff_ne.2 (hne t ts rfl)
    have hplace : tokens.length - ts.length = c.place := by
      have := h.stands.place_add
      omega
    rw [hmissing, hplace]
    exact ⟨_, rfl, h.remark _⟩

/-- A bracketed sum: what is in the brackets and the closing bracket. -/
theorem Agrees.closed (h : Agrees tokens c y (x c)) (hc : c₀.Leaves tokens c ts [])
    (kind : TokenKind) (bracket : String) (hlength : ts.length ≤ us.length) :
    Agrees tokens c₀
      (y >>= fun s => (pure ((close tokens.length kind bracket s).after [] hlength) :
        Except NodeFault (Step us)))
      ((do let n ← x; expect tokens kind bracket; return n : Walk (Option Expr)) c) := by
  refine h.bind hc fun s c' hs => ?_
  obtain ⟨ws, hcloses, hnode, hws⟩ := closes_close tokens.length kind bracket s
  obtain ⟨c'', hexpect, hleaves⟩ := expect_of_closes hcloses hs
  rw [List.nil_append, ← hws] at hleaves
  rw [bind_walk_ok hexpect, ← hnode]
  exact agrees_return hleaves _

end

/-! ## Chains -/

/-- How many calls the phrase needs below each other, for the tokens that are left. -/
def depth : Phrase → List Token → Nat
  | .chain true, ts => 8 * ts.length + 6
  | .chain false, ts => 8 * ts.length + 4
  | .group, ts => 8 * ts.length + 3
  | .primary, ts => 8 * ts.length + 2
  | .tail _ _, ts => 8 * ts.length

theorem depth_le (p : Phrase) (ts : List Token) : depth p ts ≤ 8 * ts.length + 6 := by
  unfold depth
  split <;> omega

theorem le_depth (p : Phrase) (ts : List Token) : 8 * ts.length ≤ depth p ts := by
  unfold depth
  split <;> omega

/-- A call where less is left needs less, whatever is called. -/
theorem depth_lt {p q : Phrase} {ts us : List Token} (h : us.length < ts.length) :
    depth q us < depth p ts := by
  have hq := depth_le q us
  have hp := le_depth p ts
  omega

theorem depth_operand_lt (additive : Bool) (ts : List Token) :
    depth (.operand additive) ts < depth (.chain additive) ts := by
  cases additive <;> simp [Phrase.operand, depth]

theorem depth_tail_lt {additive : Bool} {left : Option Expr} {ts us : List Token}
    (h : us.length ≤ ts.length) : depth (.tail additive left) us < depth (.chain additive) ts := by
  cases additive <;> simp only [depth] <;> omega

/-- The calls that are not as deep as `d` agree with the reader. -/
def CallsAgree (tokens : List Token) (call : Phrase → Walk (Option Expr)) (d : Nat) : Prop :=
  ∀ q us c, depth q us < d → c.At tokens us →
    Agrees tokens c (q.read tokens.length us) (call q c)

section
variable {tokens ts : List Token} {call : Phrase → Walk (Option Expr)} {c : Cursor}

theorem agrees_chain {additive : Bool} (hcall : CallsAgree tokens call (depth (.chain additive) ts))
    (hc : c.At tokens ts) :
    Agrees tokens c ((Phrase.chain additive).read tokens.length ts)
      (body tokens call (.chain additive) c) := by
  rw [read_chain]
  have hfirst := hcall (.operand additive) ts c (depth_operand_lt additive ts) hc
  refine hfirst.bind (.refl hc) fun s c' hs => ?_
  have hmore := hcall (.tail additive s.node) s.rest c' (depth_tail_lt s.length_le) hs.stands
  exact hmore.after hs s.length_le

theorem agrees_tail {additive : Bool} {left : Option Expr}
    (hcall : CallsAgree tokens call (depth (.tail additive left) ts)) (hc : c.At tokens ts) :
    Agrees tokens c ((Phrase.tail additive left).read tokens.length ts)
      (body tokens call (.tail additive left) c) := by
  rw [body, bind_walk_ok (peek_eq hc)]
  cases ts with
  | nil =>
    rw [read_tail_nil]
    exact agrees_return (.refl hc) left
  | cons t ts =>
    rw [read_tail_cons]
    have hpeek : leading? additive (t :: ts).head?.toList = leading? additive (t :: ts) := rfl
    rw [hpeek]
    cases hop : leading? additive (t :: ts) with
    | none => exact agrees_return (.refl hc) left
    | some op =>
      dsimp only
      have hstep := (Cursor.Leaves.refl hc).step
      rw [bind_walk_ok (pop_eq hc)]
      have hright := hcall (.operand additive) ts _ (depth_lt (Nat.lt_succ_self _)) hstep.stands
      refine hright.bind hstep fun right c' hs => ?_
      cases hjoin : join op left right.node with
      | none => exact agrees_return hs none
      | some e =>
        have hmore := hcall (.tail additive (some e)) right.rest c'
          (depth_lt (Nat.lt_succ_of_le right.length_le)) hs.stands
        have hlength : right.rest.length ≤ (t :: ts).length := Nat.le_succ_of_le right.length_le
        exact hmore.after hs hlength

end

/-! ## Mixed numbers -/

/-- What the reader makes of a number with a fraction after it: the tokens from the
fraction on are given back where they are no part of a mixed number. -/
def attempt (count : Nat) (whole : String) (ts : List Token) : Except NodeFault (Step ts) := do
  let n ← group count ts.tail
  let d ← group count n.rest
  have hlength : d.rest.length ≤ ts.length :=
    Nat.le_trans (Nat.le_trans d.length_le n.length_le) (List.tail_suffix ts).length_le
  match bareInteger? n.node, bareInteger? d.node with
  | some a, some b =>
    return ⟨some (← mixedNumber whole a b), d.rest, n.warnings ++ d.warnings, hlength⟩
  | _, _ => return ⟨none, ts, n.warnings ++ d.warnings ++ [.notMixed whole], Nat.le_refl _⟩

/-- A number before a fraction is part of the mixed number, or stands alone. -/
theorem primary_of_fraction (count : Nat) {t u : Token} (ts : List Token) (ht : t.kind = .number)
    (hu : u.kind = .fraction) :
    primary count (t :: u :: ts) = (do
      let s ← attempt count t.text (u :: ts)
      match s.node with
      | some e => return ⟨some e, s.rest, s.warnings, Nat.le_succ_of_le s.length_le⟩
      | none =>
        return ⟨some (← numeral t.text), s.rest, s.warnings, Nat.le_succ_of_le s.length_le⟩) := by
  rw [primary.eq_def]
  dsimp only
  simp only [ht, hu, if_true, attempt, List.tail_cons]
  cases group count ts with
  | error f => rfl
  | ok n =>
    simp only [bind_ok]
    cases group count n.rest with
    | error f => rfl
    | ok d =>
      simp only [bind_ok]
      cases bareInteger? n.node with
      | none => rfl
      | some a =>
        cases bareInteger? d.node with
        | none => rfl
        | some b =>
          dsimp only
          cases mixedNumber t.text a b <;> rfl

section
variable {tokens ts : List Token} {call : Phrase → Walk (Option Expr)} {c : Cursor}

theorem agrees_mixedFraction (hcall : CallsAgree tokens call (8 * ts.length + 4))
    (hc : c.At tokens ts) (whole : String) :
    Agrees tokens c (attempt tokens.length whole ts) (mixedFraction tokens call whole c) := by
  obtain ⟨c₁, hpop, h₁⟩ := exists_pop (Cursor.Leaves.refl hc)
  have htail : ts.tail.length ≤ ts.length := (List.tail_suffix ts).length_le
  rw [mixedFraction, bind_walk_ok (get_eq c), bind_walk_ok hpop]
  have hnum := hcall .group ts.tail c₁ (by simp only [depth]; omega) h₁.stands
  refine hnum.bind h₁ fun n c₂ h₂ => ?_
  have hden := hcall .group n.rest c₂
    (by have := n.length_le; simp only [depth]; omega) h₂.stands
  refine hden.bind h₂ fun d c₃ h₃ => ?_
  cases bareInteger? n.node with
  | none => exact agrees_return ((h₃.back hc).remark _) none
  | some a =>
    cases bareInteger? d.node with
    | none => exact agrees_return ((h₃.back hc).remark _) none
    | some b => exact agrees_made h₃ _

end

/-! ## Primaries and groups -/

section
variable {tokens ts : List Token} {call : Phrase → Walk (Option Expr)} {c c₁ : Cursor} {t : Token}

theorem primary_of_number (count : Nat) (ht : t.kind = .number)
    (hts : ∀ u more, ts = u :: more → u.kind ≠ .fraction) :
    primary count (t :: ts) =
      (do return ⟨some (← numeral t.text), ts, [], Nat.le_succ _⟩) := by
  rw [primary.eq_def]
  simp only [ht]
  cases ts with
  | nil => rfl
  | cons u more => simp only [if_neg (hts u more rfl)]

/-- What the walk does once it has stepped over a number. -/
theorem agrees_afterNumber (ht : t.kind = .number)
    (hcall : CallsAgree tokens call (depth .primary (t :: ts))) (h : c.Leaves tokens c₁ ts []) :
    Agrees tokens c (primary tokens.length (t :: ts)) ((do
      if ← sees tokens .fraction then
        match ← mixedFraction tokens call t.text with
        | some e => return some e
        | none => return some (← numeral t.text)
      else return some (← numeral t.text) : Walk (Option Expr)) c₁) := by
  rw [bind_walk_ok (sees_eq h.stands .fraction)]
  cases hfraction : ts.head?.any fun t => t.kind == TokenKind.fraction with
  | false =>
    rw [primary_of_number _ ht]
    · exact agrees_made h _
    · rintro u more rfl
      exact beq_eq_false_iff_ne.1 hfraction
  | true =>
    cases ts with
    | nil => exact absurd hfraction (by decide)
    | cons u ts =>
      have hdepth : 8 * (u :: ts).length + 4 ≤ depth .primary (t :: u :: ts) := by
        simp only [depth, List.length_cons]
        omega
      have hattempt := agrees_mixedFraction
        (fun q us c' hlt => hcall q us c' (Nat.lt_of_lt_of_le hlt hdepth)) h.stands t.text
      rw [primary_of_fraction _ ts ht (beq_iff_eq.1 hfraction)]
      refine hattempt.bind h fun s c₂ h₂ => ?_
      cases s.node with
      | none => exact agrees_made h₂ _
      | some e => exact agrees_return h₂ (some e)

theorem agrees_primary (hcall : CallsAgree tokens call (depth .primary ts)) (hc : c.At tokens ts) :
    Agrees tokens c (Phrase.primary.read tokens.length ts) (body tokens call .primary c) := by
  rw [Phrase.read, body, bind_walk_ok (peek_eq hc)]
  cases ts with
  | nil =>
    rw [primary]
    exact agrees_return (.refl hc) none
  | cons t ts =>
    have hstep := (Cursor.Leaves.refl hc).step
    have hshorter : ts.length < (t :: ts).length := Nat.lt_succ_self _
    have hlength : ts.length ≤ (t :: ts).length := Nat.le_succ _
    rw [List.head?_cons]
    cases ht : t.kind with
    | number =>
      simp only [ht]
      rw [bind_walk_ok (pop_eq hc)]
      exact agrees_afterNumber ht hcall hstep
    | mixed =>
      rw [primary.eq_def]
      simp only [ht]
      rw [bind_walk_ok (pop_eq hc)]
      exact agrees_made hstep _
    | openParen =>
      rw [primary.eq_def]
      simp only [ht]
      rw [bind_walk_ok (pop_eq hc)]
      have hinner := hcall (.chain true) ts _ (depth_lt hshorter) hstep.stands
      exact hinner.closed hstep .closeParen ")" hlength
    | operator =>
      rw [primary.eq_def]
      simp only [ht]
      cases isMinusGlyph t.text with
      | false => exact agrees_return (.refl hc) none
      | true =>
        simp only [if_true]
        rw [bind_walk_ok (pop_eq hc)]
        have harg := hcall .primary ts _ (depth_lt hshorter) hstep.stands
        exact harg.bind hstep fun s c' hs => agrees_return hs _
    | fraction =>
      rw [primary.eq_def]
      simp only [ht]
      rw [bind_walk_ok (pop_eq hc)]
      have hnum := hcall .group ts _ (depth_lt hshorter) hstep.stands
      refine hnum.bind hstep fun n c₁ h₁ => ?_
      have hden := hcall .group n.rest _ (depth_lt (Nat.lt_succ_of_le n.length_le)) h₁.stands
      exact hden.bind h₁ fun d c₂ h₂ => agrees_return h₂ _
    | closeParen | openBrace | closeBrace | space =>
      rw [primary.eq_def]
      simp only [ht]
      exact agrees_return (.refl hc) none

theorem agrees_group (hcall : CallsAgree tokens call (depth .group ts)) (hc : c.At tokens ts) :
    Agrees tokens c (Phrase.group.read tokens.length ts) (body tokens call .group c) := by
  have hprimary := hcall .primary ts c (by simp [depth]) hc
  rw [Phrase.read, body, bind_walk_ok (sees_eq hc .openBrace)]
  cases ts with
  | nil =>
    rw [group, ← primary]
    exact hprimary
  | cons t ts =>
    rw [group]
    by_cases ht : t.kind = .openBrace
    · rw [if_pos ht, List.head?_cons, Option.any_some, beq_iff_eq.2 ht, if_pos rfl,
        bind_walk_ok (pop_eq hc)]
      have hstep := (Cursor.Leaves.refl hc).step
      have hinner := hcall (.chain true) ts _ (depth_lt (Nat.lt_succ_self _)) hstep.stands
      exact hinner.closed hstep .closeBrace "\x7d" (Nat.le_succ _)
    · rw [if_neg ht, List.head?_cons, Option.any_some, beq_eq_false_iff_ne.2 ht,
        if_neg Bool.false_ne_true]
      exact hprimary

end

/-! ## Walks of every depth -/

theorem agrees_body {tokens ts : List Token} {call : Phrase → Walk (Option Expr)} {p : Phrase}
    {c : Cursor} (hcall : CallsAgree tokens call (depth p ts)) (hc : c.At tokens ts) :
    Agrees tokens c (p.read tokens.length ts) (body tokens call p c) := by
  cases p with
  | primary => exact agrees_primary hcall hc
  | group => exact agrees_group hcall hc
  | chain additive => exact agrees_chain hcall hc
  | tail additive left => exact agrees_tail hcall hc

/-- Above its depth a walk ends as the reader does. -/
theorem agrees_run (tokens : List Token) (n : Nat) : CallsAgree tokens (run tokens n) n := by
  induction n with
  | zero => exact fun q us c h => absurd h (Nat.not_lt_zero _)
  | succ n ih =>
    intro p ts c hdepth hc
    refine agrees_body (fun q us c' hlt => ih q us c' ?_) hc
    exact Nat.lt_of_lt_of_le hlt (Nat.le_of_lt_succ hdepth)

/-! ## Deeper walks -/

/-- Where the first walk has an outcome the second one has the same. -/
def Extends {α : Type} (x y : Walk α) : Prop := ∀ c o, x c = some o → y c = some o

theorem Extends.refl {α : Type} (x : Walk α) : Extends x x := fun _ _ h => h

theorem Extends.bind {α β : Type} {x y : Walk α} {f g : α → Walk β} (h : Extends x y)
    (hf : ∀ a, Extends (f a) (g a)) : Extends (x >>= f) (y >>= g) := by
  intro c o ho
  cases hx : x c with
  | none =>
    have hnone : (x >>= f) c = none := by
      show Option.bind (x c) _ = none
      rw [hx]
      rfl
    rw [hnone] at ho
    cases ho
  | some r =>
    obtain ⟨a | a, c'⟩ := r
    · rw [bind_walk_error hx] at ho
      rw [bind_walk_error (h c _ hx), ho]
    · rw [bind_walk_ok hx] at ho
      rw [bind_walk_ok (h c _ hx)]
      exact hf a c' o ho

section
variable {tokens : List Token} {call call' : Phrase → Walk (Option Expr)}

theorem extends_mixedFraction (h : ∀ p, Extends (call p) (call' p)) (whole : String) :
    Extends (mixedFraction tokens call whole) (mixedFraction tokens call' whole) :=
  .bind (.refl _) fun _ => .bind (.refl _) fun _ =>
    .bind (h _) fun _ => .bind (h _) fun _ => .refl _

theorem extends_body (h : ∀ p, Extends (call p) (call' p)) (p : Phrase) :
    Extends (body tokens call p) (body tokens call' p) := by
  cases p with
  | chain additive => exact .bind (h _) fun _ => h _
  | tail additive left =>
    refine .bind (.refl _) fun t => ?_
    cases leading? additive t.toList with
    | none => exact .refl _
    | some op =>
      refine .bind (.refl _) fun _ => .bind (h _) fun right => ?_
      cases join op left right with
      | none => exact .refl _
      | some e => exact h _
  | primary =>
    refine .bind (.refl _) fun t => ?_
    cases t with
    | none => exact .refl _
    | some t =>
      dsimp only
      cases t.kind with
      | number =>
        refine .bind (.refl _) fun _ => .bind (.refl _) fun seen => ?_
        cases seen with
        | false => exact .refl _
        | true => exact .bind (extends_mixedFraction h _) fun _ => .refl _
      | openParen => exact .bind (.refl _) fun _ => .bind (h _) fun _ => .refl _
      | operator =>
        dsimp only
        cases isMinusGlyph t.text with
        | false => exact .refl _
        | true => exact .bind (.refl _) fun _ => .bind (h _) fun _ => .refl _
      | fraction =>
        exact .bind (.refl _) fun _ => .bind (h _) fun _ => .bind (h _) fun _ => .refl _
      | mixed | closeParen | openBrace | closeBrace | space => exact .refl _
  | group =>
    refine .bind (.refl _) fun seen => ?_
    cases seen with
    | false => exact h _
    | true => exact .bind (.refl _) fun _ => .bind (h _) fun _ => .refl _

theorem extends_run_succ (n : Nat) : ∀ p, Extends (run tokens n p) (run tokens (n + 1) p) := by
  induction n with
  | zero => exact fun p c o h => nomatch h
  | succ n ih => exact extends_body ih

/-- No greater depth changes an outcome. -/
theorem extends_run {n m : Nat} (h : n ≤ m) (p : Phrase) :
    Extends (run tokens n p) (run tokens m p) := by
  induction h with
  | refl => exact .refl _
  | step _ ih => exact fun c o ho => extends_run_succ _ p c o (ih c o ho)

end

end Parser
end FormulaMap

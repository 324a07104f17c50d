/-
Evaluating expressions.

`Denotes` is the ordinary value of an expression over the rationals, and `Fails` says that a
node has none of its own account: a literal that cannot be read, or a division by zero of
values that are there.  A node above a failing one does not fail, since one of its operands
has no value.

Evaluating gives the value, or else one message for each node that fails, in reading order
(`value_accounts`).  By induction on the expression it has either a value and no issues, or
no value and the issues of the nodes in it (`Outcome`); an operation on two outcomes has to
look at its own case only when both operands have values (`Outcome.both_or`).  A literal with
a solidus is a quotient itself and may be one by zero, for which there is no message.
-/
import FormulaMap.Formula.Value
import Mathlib.Data.List.Basic

namespace FormulaMap

/-- A literal without a solidus is read or not; nothing is divided. -/
theorem Numeral.exists_rational? {text : String} (h : '/' ∉ text.toList) :
    ∃ value, Numeral.rational? text = .ok value := by
  have hfilter : '/' ∉ text.toList.filter (· ≠ ' ') := fun hmem => h (List.mem_filter.1 hmem).1
  rw [Numeral.rational?, Numeral.read, List.splitOn_eq_singleton hfilter]
  dsimp only
  cases Numeral.decimal? (text.toList.filter (· ≠ ' ')) with
  | none => exact ⟨none, rfl⟩
  | some q => exact ⟨some q, rfl⟩

namespace Valuation

/-- What is reported of the issues. -/
def messages (v : Valuation) : List String := v.issues.map ValueIssue.message

/-- Both a fraction and a division sign divide, and fail by themselves only at zero. -/
theorem combine_divide (x y : Rat) : combine divide (.of x) (.of y) =
    if y = 0 then .fail .divisionByZero else .of (x / y) := by
  by_cases hzero : y = 0
  · simp [combine, of, fail, divide, hzero]
  · simp [combine, of, divide, hzero]

/-- Operands without values leave nothing to be done. -/
theorem combine_of_none {a b : Valuation} (f : Rat → Rat → Except ValueIssue Rat)
    (h : a.value = none ∨ b.value = none) : combine f a b = ⟨none, a.issues ++ b.issues⟩ := by
  rw [combine]
  rcases h with h | h
  · rw [h]
  · rw [h]
    cases a.value <;> rfl

theorem messages_append (a b : Valuation) :
    messages ⟨none, a.issues ++ b.issues⟩ = a.messages ++ b.messages :=
  List.map_append

end Valuation

namespace Expr

/-- The texts that are read as numbers. -/
def literals : Expr → List String
  | numeral t _ => [t]
  | binary _ l r _ => l.literals ++ r.literals
  | negation a _ => a.literals
  | fraction n d _ => n.literals ++ d.literals
  | mixed w n d _ => [w, n, d]

/-- The ordinary value of an expression. -/
inductive Denotes : Expr → Rat → Prop
  | numeral {t : String} {p : Option String} {x : Rat} :
      Numeral.rational? t = .ok (some x) → Denotes (.numeral t p) x
  | mixed {w n d : String} {p : Option String} {x y z : Rat} :
      Numeral.rational? w = .ok (some x) → Numeral.rational? n = .ok (some y) →
      Numeral.rational? d = .ok (some z) → z ≠ 0 → Denotes (.mixed w n d p) (x + y / z)
  | negation {a : Expr} {p : Option String} {x : Rat} : Denotes a x → Denotes (.negation a p) (-x)
  | fraction {n d : Expr} {p : Option String} {x y : Rat} :
      Denotes n x → Denotes d y → y ≠ 0 → Denotes (.fraction n d p) (x / y)
  | add {l r : Expr} {p : Option String} {x y : Rat} :
      Denotes l x → Denotes r y → Denotes (.binary .add l r p) (x + y)
  | subtract {l r : Expr} {p : Option String} {x y : Rat} :
      Denotes l x → Denotes r y → Denotes (.binary .subtract l r p) (x - y)
  | multiply {l r : Expr} {p : Option String} {x y : Rat} :
      Denotes l x → Denotes r y → Denotes (.binary .multiply l r p) (x * y)
  | divide {l r : Expr} {p : Option String} {x y : Rat} :
      Denotes l x → Denotes r y → y ≠ 0 → Denotes (.binary .divide l r p) (x / y)

/-- A node fails of its own account, for the reason that the message gives. -/
inductive Fails : Expr → String → Prop
  | numeral {t : String} {p : Option String} : Numeral.rational? t = .ok none →
      Fails (.numeral t p) ("unsupported numeral " ++ Text.quoted t)
  | parts {w n d : String} {p : Option String} :
      (∃ t ∈ [w, n, d], Numeral.rational? t = .ok none) →
      Fails (.mixed w n d p) "unsupported mixed number parts"
  | mixed {w n d : String} {p : Option String} {x y : Rat} :
      Numeral.rational? w = .ok (some x) → Numeral.rational? n = .ok (some y) →
      Numeral.rational? d = .ok (some 0) → Fails (.mixed w n d p) "division by zero"
  | fraction {n d : Expr} {p : Option String} {x : Rat} : Denotes n x → Denotes d 0 →
      Fails (.fraction n d p) "division by zero"
  | divide {l r : Expr} {p : Option String} {x : Rat} : Denotes l x → Denotes r 0 →
      Fails (.binary .divide l r p) "division by zero"

/-- One message for each node of a list that fails, in the order of the list. -/
inductive Reported : List Expr → List String → Prop
  | nil : Reported [] []
  | fails {n : Expr} {ns : List Expr} {message : String} {messages : List String} :
      Fails n message → Reported ns messages → Reported (n :: ns) (message :: messages)
  | fine {n : Expr} {ns : List Expr} {messages : List String} :
      (∀ message, ¬Fails n message) → Reported ns messages → Reported (n :: ns) messages

variable {e l r : Expr} {x y : Rat} {ns ns' : List Expr} {message message' : String}
  {messages messages' : List String}

/-! ## Reports -/

theorem Reported.append (h : Reported ns messages) (h' : Reported ns' messages') :
    Reported (ns ++ ns') (messages ++ messages') := by
  induction h with
  | nil => exact h'
  | fails hfails _ ih => exact .fails hfails ih
  | fine hfine _ ih => exact .fine hfine ih

/-- Nothing is reported exactly when nothing fails. -/
theorem Reported.eq_nil_iff (h : Reported ns messages) :
    messages = [] ↔ ∀ n ∈ ns, ∀ message, ¬Fails n message := by
  induction h with
  | nil => simp
  | fails hfails _ _ =>
    refine ⟨fun hnil => absurd hnil (List.cons_ne_nil _ _), fun hnone => ?_⟩
    exact absurd hfails (hnone _ List.mem_cons_self _)
  | fine hfine _ ih => rw [ih, List.forall_mem_cons, and_iff_right hfine]

/-! ## Values -/

/-- An expression with a value evaluates to it. -/
theorem Denotes.value_eq (h : Denotes e x) : e.value = .ok (.of x) := by
  induction h with
  | numeral hread => rw [value, hread]; rfl
  | mixed hw hn hd hz =>
    rw [value, hw, hn, hd]
    show Except.ok (mixedValue _ _ _) = _
    rw [mixedValue, FormulaMap.divide, if_neg hz]
  | negation _ ih => rw [value, ih]; rfl
  | fraction _ _ hy ihn ihd =>
    rw [value, ihn, ihd]
    show Except.ok (Valuation.combine _ _ _) = _
    rw [Valuation.combine_divide, if_neg hy]
  | add _ _ ihl ihr => rw [value, ihl, ihr]; rfl
  | subtract _ _ ihl ihr => rw [value, ihl, ihr]; rfl
  | multiply _ _ ihl ihr => rw [value, ihl, ihr]; rfl
  | divide _ _ hy ihl ihr =>
    rw [value, ihl, ihr]
    show Except.ok (Valuation.combine FormulaMap.divide _ _) = _
    rw [Valuation.combine_divide, if_neg hy]

theorem Denotes.unique (hx : Denotes e x) (hy : Denotes e y) : x = y := by
  have hvalue := hx.value_eq.symm.trans hy.value_eq
  rw [Except.ok.injEq, Valuation.of, Valuation.of, Valuation.mk.injEq, Option.some.injEq] at hvalue
  exact hvalue.1

/-- A node with a value does not fail. -/
theorem Denotes.not_fails (h : Denotes e x) (message : String) : ¬Fails e message := by
  intro hfails
  cases hfails with
  | numeral hnone =>
    cases h with
    | numeral hread => simp [hnone] at hread
  | parts hnone =>
    cases h with
    | mixed hw hn hd _ => simp [hw, hn, hd] at hnone
  | mixed _ _ hzero =>
    cases h with
    | mixed _ _ hd hz =>
      rw [hzero, Except.ok.injEq, Option.some.injEq] at hd
      exact hz hd.symm
  | fraction _ hzero =>
    cases h with
    | fraction _ hd hy => exact hy (hd.unique hzero)
  | divide _ hzero =>
    cases h with
    | divide _ hr hy => exact hy (hr.unique hzero)

theorem Denotes.reported (h : Denotes e x) : Reported e.nodes [] := by
  induction h with
  | numeral hread => exact .fine (Denotes.numeral hread).not_fails .nil
  | mixed hw hn hd hz => exact .fine (Denotes.mixed hw hn hd hz).not_fails .nil
  | negation ha ih => exact .fine (Denotes.negation ha).not_fails ih
  | fraction hn hd hy ihn ihd => exact .fine (Denotes.fraction hn hd hy).not_fails (ihn.append ihd)
  | add hl hr ihl ihr => exact ihl.append (.fine (Denotes.add hl hr).not_fails ihr)
  | subtract hl hr ihl ihr => exact ihl.append (.fine (Denotes.subtract hl hr).not_fails ihr)
  | multiply hl hr ihl ihr => exact ihl.append (.fine (Denotes.multiply hl hr).not_fails ihr)
  | divide hl hr hy ihl ihr => exact ihl.append (.fine (Denotes.divide hl hr hy).not_fails ihr)

/-- A node fails for one reason. -/
theorem Fails.unique (h : Fails e message) (h' : Fails e message') : message = message' := by
  cases h with
  | numeral _ =>
    cases h' with
    | numeral _ => rfl
  | parts hnone =>
    cases h' with
    | parts _ => rfl
    | mixed hw hn hd => simp [hw, hn, hd] at hnone
  | mixed hw hn hd =>
    cases h' with
    | parts hnone => simp [hw, hn, hd] at hnone
    | mixed _ _ _ => rfl
  | fraction _ _ =>
    cases h' with
    | fraction _ _ => rfl
  | divide _ _ =>
    cases h' with
    | divide _ _ => rfl

/-- What is reported of a list of nodes is determined by the nodes. -/
theorem Reported.unique (h : Reported ns messages) (h' : Reported ns messages') :
    messages = messages' := by
  induction h generalizing messages' with
  | nil =>
    cases h' with
    | nil => rfl
  | fails hfails _ ih =>
    cases h' with
    | fails hfails' hrest => rw [hfails.unique hfails', ih hrest]
    | fine hfine _ => exact absurd hfails (hfine _)
  | fine hfine _ ih =>
    cases h' with
    | fails hfails _ => exact absurd hfails (hfine _)
    | fine _ hrest => exact ih hrest

/-! ## Outcomes -/

/-- What evaluating an expression comes to: its value, or the issues of its nodes. -/
inductive Outcome (e : Expr) (v : Valuation) : Prop
  | value {x : Rat} : Denotes e x → v = .of x → Outcome e v
  | issues : v.value = none → v.issues ≠ [] → Reported e.nodes v.messages → Outcome e v

variable {a b v : Valuation}

/-- An expression for which there are issues has no value. -/
theorem not_denotes_of_reported (hissues : v.issues ≠ []) (h : Reported e.nodes v.messages)
    (x : Rat) : ¬Denotes e x := by
  intro hx
  exact hissues (List.map_eq_nil_iff.1 (h.unique hx.reported))

theorem Outcome.reported (h : Outcome e v) : Reported e.nodes v.messages := by
  cases h with
  | value hx hv =>
    subst hv
    exact hx.reported
  | issues _ _ hreported => exact hreported

/-- Either both operands have values, or one has none, and then there are issues. -/
theorem Outcome.both_or (ha : Outcome l a) (hb : Outcome r b) :
    (∃ x y, Denotes l x ∧ Denotes r y ∧ a = .of x ∧ b = .of y) ∨
      (∀ x y, Denotes l x → ¬Denotes r y) ∧ (a.value = none ∨ b.value = none) ∧
        a.issues ++ b.issues ≠ [] := by
  cases ha with
  | value hx ha =>
    cases hb with
    | value hy hb => exact Or.inl ⟨_, _, hx, hy, ha, hb⟩
    | issues hnone hissues hreported =>
      refine Or.inr ⟨fun _ y _ => not_denotes_of_reported hissues hreported y, Or.inr hnone, ?_⟩
      exact List.append_ne_nil_of_right_ne_nil _ hissues
  | issues hnone hissues hreported =>
    have hvalue := not_denotes_of_reported hissues hreported
    refine Or.inr ⟨fun x _ hx => absurd hx (hvalue x), Or.inl hnone, ?_⟩
    exact List.append_ne_nil_of_left_ne_nil hissues _

theorem outcome_mixed {w n d : String} {p : Option String} {x y z : Option Rat}
    (hw : Numeral.rational? w = .ok x) (hn : Numeral.rational? n = .ok y)
    (hd : Numeral.rational? d = .ok z) : Outcome (.mixed w n d p) (mixedValue x y z) := by
  have hparts : (∃ t ∈ [w, n, d], Numeral.rational? t = .ok none) →
      Outcome (.mixed w n d p) (.fail .unsupportedMixed) := fun hunread =>
    .issues rfl (List.cons_ne_nil _ _) (.fails (.parts hunread) .nil)
  cases x with
  | none => exact hparts ⟨w, by simp, hw⟩
  | some x =>
    cases y with
    | none => exact hparts ⟨n, by simp, hn⟩
    | some y =>
      cases z with
      | none => exact hparts ⟨d, by simp, hd⟩
      | some z =>
        rw [mixedValue, FormulaMap.divide]
        by_cases hzero : z = 0
        · subst hzero
          exact .issues rfl (List.cons_ne_nil _ _) (.fails (.mixed hw hn hd) .nil)
        · rw [if_neg hzero]
          exact .value (.mixed hw hn hd hzero) rfl

theorem outcome_fraction {n d : Expr} {p : Option String} (hn : Outcome n a) (hd : Outcome d b) :
    Outcome (.fraction n d p) (.combine divide a b) := by
  rcases hn.both_or hd with ⟨x, y, hx, hy, rfl, rfl⟩ | ⟨hnot, hnone, hissues⟩
  · rw [Valuation.combine_divide]
    by_cases hzero : y = 0
    · subst hzero
      exact .issues rfl (List.cons_ne_nil _ _)
        (.fails (.fraction hx hy) (hx.reported.append hy.reported))
    · rw [if_neg hzero]
      exact .value (.fraction hx hy hzero) rfl
  · have hfine : ∀ message, ¬Fails (.fraction n d p) message := by
      rintro _ ⟨⟩
      next hx hy => exact hnot _ _ hx hy
    rw [Valuation.combine_of_none _ hnone]
    refine .issues rfl hissues ?_
    rw [Valuation.messages_append]
    exact .fine hfine (hn.reported.append hd.reported)

theorem outcome_binary {o : BinaryOperation} {p : Option String} (hl : Outcome l a)
    (hr : Outcome r b) : Outcome (.binary o l r p) (.combine o.apply a b) := by
  rcases hl.both_or hr with ⟨x, y, hx, hy, rfl, rfl⟩ | ⟨hnot, hnone, hissues⟩
  · cases o with
    | add => exact .value (.add hx hy) rfl
    | subtract => exact .value (.subtract hx hy) rfl
    | multiply => exact .value (.multiply hx hy) rfl
    | divide =>
      show Outcome _ (.combine FormulaMap.divide _ _)
      rw [Valuation.combine_divide]
      by_cases hzero : y = 0
      · subst hzero
        exact .issues rfl (List.cons_ne_nil _ _)
          (hx.reported.append (.fails (.divide hx hy) hy.reported))
      · rw [if_neg hzero]
        exact .value (.divide hx hy hzero) rfl
  · have hfine : ∀ message, ¬Fails (.binary o l r p) message := by
      rintro _ ⟨⟩
      next hx hy => exact hnot _ _ hx hy
    rw [Valuation.combine_of_none _ hnone]
    refine .issues rfl hissues ?_
    rw [Valuation.messages_append]
    exact hl.reported.append (.fine hfine hr.reported)

/-- An expression whose literals are read or not comes to an outcome. -/
theorem exists_outcome_of_answers (h : ∀ t ∈ e.literals, ∃ x, Numeral.rational? t = .ok x) :
    ∃ v, e.value = .ok v ∧ Outcome e v := by
  induction e with
  | numeral t p =>
    obtain ⟨x, hx⟩ := h t List.mem_cons_self
    rw [value, hx]
    cases x with
    | none => exact ⟨_, rfl, .issues rfl (List.cons_ne_nil _ _) (.fails (.numeral hx) .nil)⟩
    | some x => exact ⟨_, rfl, .value (.numeral hx) rfl⟩
  | mixed w n d p =>
    obtain ⟨x, hx⟩ := h w (by simp [literals])
    obtain ⟨y, hy⟩ := h n (by simp [literals])
    obtain ⟨z, hz⟩ := h d (by simp [literals])
    rw [value, hx, hy, hz]
    exact ⟨_, rfl, outcome_mixed hx hy hz⟩
  | negation a p ih =>
    obtain ⟨v, hv, houtcome⟩ := ih h
    rw [value, hv]
    refine ⟨_, rfl, ?_⟩
    cases houtcome with
    | value hx hv =>
      subst hv
      exact .value (.negation hx) rfl
    | issues hnone hissues hreported =>
      refine .issues ?_ hissues (.fine (fun message hfails => nomatch hfails) hreported)
      rw [hnone]
      rfl
  | fraction n d p ihn ihd =>
    obtain ⟨a, ha, hn⟩ := ihn fun t ht => h t (List.mem_append_left _ ht)
    obtain ⟨b, hb, hd⟩ := ihd fun t ht => h t (List.mem_append_right _ ht)
    rw [value, ha, hb]
    exact ⟨_, rfl, outcome_fraction hn hd⟩
  | binary o l r p ihl ihr =>
    obtain ⟨a, ha, hl⟩ := ihl fun t ht => h t (List.mem_append_left _ ht)
    obtain ⟨b, hb, hr⟩ := ihr fun t ht => h t (List.mem_append_right _ ht)
    rw [value, ha, hb]
    exact ⟨_, rfl, outcome_binary hl hr⟩

theorem exists_outcome (h : ∀ t ∈ e.literals, '/' ∉ t.toList) :
    ∃ v, e.value = .ok v ∧ Outcome e v :=
  exists_outcome_of_answers fun t ht => Numeral.exists_rational? (h t ht)

/-- Evaluating an expression without a solidus in its literals gives its value exactly when no
node fails.  Then nothing is reported, and otherwise each node that fails is, once and in
reading order. -/
theorem value_accounts (h : ∀ t ∈ e.literals, '/' ∉ t.toList) : ∃ v, e.value = .ok v ∧
    (v.value ≠ none ↔ ∀ n ∈ e.nodes, ∀ message, ¬Fails n message) ∧
      (∀ x, v.value = some x → Denotes e x ∧ v.issues = []) ∧ Reported e.nodes v.messages := by
  obtain ⟨v, hv, houtcome⟩ := exists_outcome h
  refine ⟨v, hv, ?_, ?_, houtcome.reported⟩
  · rw [← houtcome.reported.eq_nil_iff, Valuation.messages, List.map_eq_nil_iff]
    cases houtcome with
    | value hx hv => simp [hv, Valuation.of]
    | issues hnone hissues _ => simp [hnone, hissues]
  · intro x hx
    cases houtcome with
    | value hy hv =>
      rw [hv, Valuation.of, Option.some.injEq] at hx
      subst hx hv
      exact ⟨hy, rfl⟩
    | issues hnone _ _ => exact absurd (hnone.symm.trans hx) (Option.some_ne_none x).symm

/-- A mixed number over zero, less the opposite of what is no numeral, and five over zero. -/
def threeFailures : Expr :=
  .binary .add
    (.binary .subtract (.mixed "1" "1" "0" none) (.negation (.numeral "2..3" none) none) none)
    (.fraction (.numeral "5" none) (.binary .subtract (.numeral "2" none) (.numeral "2" none) none)
      none) none

theorem threeFailures_accounts : ∃ v, threeFailures.value = .ok v ∧ v.value = none ∧
    v.messages = ["division by zero", "unsupported numeral '2..3'", "division by zero"] ∧
      Reported threeFailures.nodes v.messages := by
  have hvalue : threeFailures.value = .ok
      ⟨none, [.divisionByZero, .unsupportedNumeral "2..3", .divisionByZero]⟩ := by
    decide +kernel
  have hliterals : ∀ t ∈ threeFailures.literals, '/' ∉ t.toList := by decide +kernel
  obtain ⟨v, hv, -, -, hreported⟩ := value_accounts hliterals
  rw [hvalue, Except.ok.injEq] at hv
  subst hv
  exact ⟨_, hvalue, rfl, by decide +kernel, hreported⟩

end Expr
end FormulaMap

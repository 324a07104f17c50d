/-
Reading an expression with a cursor.

The reader of `FormulaMap.Formula.Parser` is given the tokens that are left and hands on
those that it leaves.  Here the same reader walks over one row of tokens with a cursor
that it moves: it looks at the token under the cursor, steps over it, and a number that
makes no mixed number with the fraction after it sends the cursor back to the fraction.
Nothing bounds a walk but a depth of calls (`run`), and a walk that comes to it has no
outcome, so one that went round or stayed in place would have none at any depth.

The places that the cursor was moved to are kept, also when a walk ends in a fault.
`Cursor.Within` says that all of them lie between two bounds: the place where the walk
started and the end of the row.
-/
import FormulaMap.Proofs.Formula.Reading

namespace FormulaMap
namespace Parser

/-! ## The walk -/

structure Cursor where
  place : Nat
  /-- The places that the cursor was moved to, one after the other. -/
  visited : List Nat
  warnings : List ParseWarning
  deriving DecidableEq

/-- A step of a walk: it may come to the bound on the depth, or end with a fault. -/
abbrev Walk := ExceptT NodeFault (StateT Cursor Option)

namespace Cursor

def start (place : Nat) : Cursor := ⟨place, [], []⟩

def moveTo (c : Cursor) (place : Nat) : Cursor := ⟨place, c.visited ++ [place], c.warnings⟩

def remark (c : Cursor) (w : ParseWarning) : Cursor := ⟨c.place, c.visited, c.warnings ++ [w]⟩

end Cursor

section
variable (tokens : List Token)

def peek : Walk (Option Token) := do return tokens[(← get).place]?

/-- Steps over the token under the cursor, if there is one. -/
def pop : Walk Unit := do
  if (← peek tokens).isSome then modify fun c => c.moveTo (c.place + 1)

def sees (kind : TokenKind) : Walk Bool := do
  return (← peek tokens).any fun t => t.kind == kind

/-- Steps over a closing bracket, or remarks that it is missing under the cursor. -/
def expect (kind : TokenKind) (bracket : String) : Walk Unit := do
  if ← sees tokens kind then pop tokens
  else modify fun c => c.remark (.missingBracket bracket c.place)

/-- Makes a mixed number of a number and the fraction under the cursor, or moves the
cursor back to the fraction. -/
def mixedFraction (call : Phrase → Walk (Option Expr)) (whole : String) : Walk (Option Expr) := do
  let mark := (← get).place
  pop tokens
  let n ← call .group
  let d ← call .group
  match bareInteger? n, bareInteger? d with
  | some a, some b => return some (← mixedNumber whole a b)
  | _, _ =>
    modify fun c => (c.moveTo mark).remark (.notMixed whole)
    return none

/-- The walk over one phrase, by the walks over the phrases that it calls. -/
def body (call : Phrase → Walk (Option Expr)) : Phrase → Walk (Option Expr)
  | .chain additive => do
    let left ← call (.operand additive)
    call (.tail additive left)
  | .tail additive left => do
    match leading? additive (← peek tokens).toList with
    | none => return left
    | some op =>
      pop tokens
      let right ← call (.operand additive)
      match join op left right with
      | none => return none
      | some e => call (.tail additive (some e))
  | .primary => do
    match ← peek tokens with
    | none => return none
    | some t =>
      match t.kind with
      | .mixed =>
        pop tokens
        return some (← mixedToken t.text)
      | .number =>
        pop tokens
        if ← sees tokens .fraction then
          match ← mixedFraction tokens call t.text with
          | some e => return some e
          | none => return some (← numeral t.text)
        else return some (← numeral t.text)
      | .openParen =>
        pop tokens
        let inner ← call (.chain true)
        expect tokens .closeParen ")"
        return inner
      | .operator =>
        if isMinusGlyph t.text then
          pop tokens
          return (← call .primary).map negate
        else return none
      | .fraction =>
        pop tokens
        let n ← call .group
        let d ← call .group
        return pair n d
      | _ => return none
  | .group => do
    if ← sees tokens .openBrace then
      pop tokens
      let inner ← call (.chain true)
      expect tokens .closeBrace "\x7d"
      return inner
    else call .primary

/-- The walk over a phrase with at most `n` calls below each other, the rounds of a chain
counted as calls. -/
def run : Nat → Phrase → Walk (Option Expr)
  | 0, _ => fun _ => none
  | n + 1, p => body tokens (run n) p

/-- What is made of a whole row, once the walk over it has ended. -/
def parsed : Except NodeFault (Option Expr) × Cursor → Parsed
  | (.ok (some e), c) =>
    ⟨some e, c.warnings ++ if c.place < tokens.length then [.trailing c.place] else []⟩
  | (.ok none, c) => ⟨none, if c.warnings.isEmpty then [.noExpression] else c.warnings⟩
  | (.error f, _) => ⟨none, [.aborted f]⟩

def parse (n : Nat) : Option Parsed := (run tokens n (.chain true) (.start 0)).map (parsed tokens)

end

/-! ## Where the cursor may go -/

namespace Cursor

variable {tokens ts rest us : List Token} {ws ws' : List ParseWarning} {c c' c'' : Cursor}

/-- The tokens `ts` are those from the cursor on. -/
def At (tokens : List Token) (c : Cursor) (ts : List Token) : Prop :=
  ∃ before, tokens = before ++ ts ∧ c.place = before.length

theorem at_start (tokens : List Token) : (start 0).At tokens tokens := ⟨[], rfl, rfl⟩

theorem at_drop (h : c.place ≤ tokens.length) : c.At tokens (tokens.drop c.place) :=
  ⟨tokens.take c.place, (List.take_append_drop _ _).symm, (List.length_take_of_le h).symm⟩

theorem At.place_add (h : c.At tokens ts) : c.place + ts.length = tokens.length := by
  obtain ⟨before, rfl, hplace⟩ := h
  rw [hplace, List.length_append]

theorem At.place_le (h : c.At tokens ts) : c.place ≤ tokens.length := by
  have := h.place_add
  omega

theorem At.getElem? (h : c.At tokens ts) : tokens[c.place]? = ts.head? := by
  obtain ⟨before, rfl, hplace⟩ := h
  rw [hplace, List.getElem?_append_right (Nat.le_refl _), Nat.sub_self, List.head?_eq_getElem?]

theorem At.step {t : Token} (h : c.At tokens (t :: ts)) : (c.moveTo (c.place + 1)).At tokens ts := by
  obtain ⟨before, rfl, hplace⟩ := h
  refine ⟨before ++ [t], by simp, ?_⟩
  rw [List.length_append, moveTo, hplace]
  rfl

/-- Between `c` and `c'` the cursor was neither before its start nor behind the end of the
row. -/
structure Within (tokens : List Token) (c c' : Cursor) : Prop where
  place_le : c.place ≤ c'.place
  le_length : c'.place ≤ tokens.length
  visited : ∃ places, c'.visited = c.visited ++ places ∧
    ∀ i ∈ places, c.place ≤ i ∧ i ≤ tokens.length

theorem Within.refl (h : c.place ≤ tokens.length) : c.Within tokens c :=
  ⟨Nat.le_refl _, h, [], (List.append_nil _).symm, by simp⟩

theorem Within.trans (h : c.Within tokens c') (h' : c'.Within tokens c'') :
    c.Within tokens c'' where
  place_le := Nat.le_trans h.place_le h'.place_le
  le_length := h'.le_length
  visited := by
    obtain ⟨places, hvisited, hplaces⟩ := h.visited
    obtain ⟨places', hvisited', hplaces'⟩ := h'.visited
    refine ⟨places ++ places', by rw [hvisited', hvisited, List.append_assoc], ?_⟩
    intro i hi
    rcases List.mem_append.1 hi with hi | hi
    · exact hplaces i hi
    · exact ⟨Nat.le_trans h.place_le (hplaces' i hi).1, (hplaces' i hi).2⟩

/-- The cursor is moved to a place that it may be at. -/
theorem Within.moveTo {i : Nat} (h : c.Within tokens c') (hi : c.place ≤ i) (hlength : i ≤ tokens.length) :
    c.Within tokens (c'.moveTo i) where
  place_le := hi
  le_length := hlength
  visited := by
    obtain ⟨places, hvisited, hplaces⟩ := h.visited
    refine ⟨places ++ [i], by rw [Cursor.moveTo, hvisited, List.append_assoc], ?_⟩
    intro j hj
    rcases List.mem_append.1 hj with hj | hj
    · exact hplaces j hj
    · rw [List.mem_singleton.1 hj]
      exact ⟨hi, hlength⟩

/-- On the way from `c` to `c'` the tokens up to `rest` were taken and `ws` was remarked. -/
structure Leaves (tokens : List Token) (c c' : Cursor) (rest : List Token)
    (ws : List ParseWarning) : Prop where
  within : c.Within tokens c'
  stands : c'.At tokens rest
  warnings : c'.warnings = c.warnings ++ ws

theorem Leaves.refl (h : c.At tokens ts) : c.Leaves tokens c ts [] :=
  ⟨.refl h.place_le, h, (List.append_nil _).symm⟩

theorem Leaves.trans (h : c.Leaves tokens c' rest ws) (h' : c'.Leaves tokens c'' us ws') :
    c.Leaves tokens c'' us (ws ++ ws') :=
  ⟨h.within.trans h'.within, h'.stands, by rw [h'.warnings, h.warnings, List.append_assoc]⟩

theorem Leaves.step {t : Token} (h : c.Leaves tokens c' (t :: rest) ws) :
    c.Leaves tokens (c'.moveTo (c'.place + 1)) rest ws where
  within := by
    have hplace := h.within.place_le
    have hlength := h.stands.step.place_le
    exact h.within.moveTo (by omega) hlength
  stands := h.stands.step
  warnings := h.warnings

theorem Leaves.remark (h : c.Leaves tokens c' rest ws) (w : ParseWarning) :
    c.Leaves tokens (c'.remark w) rest (ws ++ [w]) where
  within := ⟨h.within.place_le, h.within.le_length, h.within.visited⟩
  stands := h.stands
  warnings := by rw [Cursor.remark, h.warnings, List.append_assoc]

/-- The cursor goes back to where it was. -/
theorem Leaves.back (h : c.Leaves tokens c' rest ws) (hc : c.At tokens ts) :
    c.Leaves tokens (c'.moveTo c.place) ts ws where
  within := h.within.moveTo (Nat.le_refl _) hc.place_le
  stands := hc
  warnings := h.warnings

end Cursor

/-! ## Steps of a walk -/

section
variable {tokens ts : List Token} {c c' : Cursor}

theorem bind_walk_ok {α β : Type} {x : Walk α} {a : α} (h : x c = some (.ok a, c'))
    (f : α → Walk β) : (x >>= f) c = f a c' := by
  show Option.bind (x c) _ = _
  rw [h]
  rfl

theorem bind_walk_error {α β : Type} {x : Walk α} {f : NodeFault} (h : x c = some (.error f, c'))
    (g : α → Walk β) : (x >>= g) c = some (.error f, c') := by
  show Option.bind (x c) _ = _
  rw [h]
  rfl

theorem peek_eq (h : c.At tokens ts) : peek tokens c = some (.ok ts.head?, c) := by
  rw [← h.getElem?]
  rfl

theorem get_eq (c : Cursor) : (get : Walk Cursor) c = some (.ok c, c) := rfl

theorem sees_eq (h : c.At tokens ts) (kind : TokenKind) :
    sees tokens kind c = some (.ok (ts.head?.any fun t => t.kind == kind), c) := by
  rw [sees, bind_walk_ok (peek_eq h)]
  rfl

theorem pop_eq {t : Token} (h : c.At tokens (t :: ts)) :
    pop tokens c = some (.ok (), c.moveTo (c.place + 1)) := by
  rw [pop, bind_walk_ok (peek_eq h)]
  rfl

theorem pop_eq_nil (h : c.At tokens []) : pop tokens c = some (.ok (), c) := by
  rw [pop, bind_walk_ok (peek_eq h)]
  rfl

end

end Parser
end FormulaMap

/-
Stripping undoes annotating.

`strip_render_append` says that stripping the source of a piece of markup leaves
its content, whatever comes after it.  Two things are asked of the markup.  Braces
stand only where groups and annotations put them (`Plain`), so that the reader of a
group finds the brace that closes it; and the command that attaches a note begins
nowhere but at an annotation (`Headed`), not even across the border between two
pieces, which is why `Headed` speaks of the text that comes next.

For a whole document the second condition can be read off its source: `headOffsets` are the
places of the annotations, and the command must stand at no other (`stripText_render`).
-/
import FormulaMap.Formula.Markup

namespace FormulaMap
namespace Annotations

open Markup

/-! ## Groups -/

/-- The reader of a group passes over the text and stands where it stood before, at
the same depth. -/
def Passes (cs : List Char) : Prop :=
  ∀ depth tail, groupFrom depth (cs ++ tail) = (groupFrom depth tail).map fun r => (cs ++ r.1, r.2)

def isBrace (c : Char) : Bool := c == '{' || c == '}'

/-- Neither a brace nor the sign with which a command begins. -/
def isPlainChar (c : Char) : Bool := !(c == '{' || c == '}' || c == '\\')

theorem isPlainChar_iff {c : Char} : isPlainChar c = true ↔ isBrace c = false ∧ c ≠ '\\' := by
  rw [isPlainChar, Bool.not_eq_true', Bool.or_eq_false_iff, beq_eq_false_iff_ne]
  rfl

theorem no_brace_of_plain {cs : List Char} (h : cs.all isPlainChar = true) :
    cs.all (fun c => !isBrace c) = true := by
  rw [List.all_eq_true] at h ⊢
  intro c hc
  rw [(isPlainChar_iff.1 (h c hc)).1, Bool.not_false]

theorem no_slash_of_plain {cs : List Char} (h : cs.all isPlainChar = true) : '\\' ∉ cs :=
  fun hmem => (isPlainChar_iff.1 (List.all_eq_true.1 h _ hmem)).2 rfl

theorem Passes.append {as bs : List Char} (ha : Passes as) (hb : Passes bs) :
    Passes (as ++ bs) := by
  intro depth tail
  rw [List.append_assoc, ha, hb, Option.map_map]
  apply congrArg (Option.map · (groupFrom depth tail))
  funext r
  simp

theorem passes_of_no_brace {cs : List Char} (h : cs.all (fun c => !isBrace c) = true) :
    Passes cs := by
  induction cs with
  | nil =>
    intro depth tail
    simp
  | cons c cs ih =>
    rw [List.all_cons, Bool.and_eq_true] at h
    obtain ⟨hc, hcs⟩ := h
    have hopen : c ≠ '{' := by
      rintro rfl
      exact absurd hc (by decide)
    have hclose : c ≠ '}' := by
      rintro rfl
      exact absurd hc (by decide)
    intro depth tail
    rw [List.cons_append, groupFrom, if_neg (fun hboth => hclose hboth.1)]
    dsimp only
    rw [if_neg hopen, if_neg hclose, ih hcs, Option.map_map]
    rfl

theorem groupFrom_close (rest : List Char) : groupFrom 0 ('}' :: rest) = some ([], rest) := by
  rw [groupFrom, if_pos ⟨rfl, rfl⟩]

theorem Passes.braced {cs : List Char} (h : Passes cs) : Passes (Markup.braced cs) := by
  intro depth tail
  have hinner : groupFrom (depth + 1) ('}' :: tail) =
      (groupFrom depth tail).map fun r => ('}' :: r.1, r.2) := by
    rw [groupFrom, if_neg (fun hboth => Nat.succ_ne_zero depth hboth.2)]
    rfl
  show groupFrom depth ('{' :: (cs ++ ['}'] ++ tail)) = _
  rw [groupFrom, if_neg (fun hboth => absurd hboth.1 (by decide))]
  dsimp only
  rw [if_pos rfl, List.append_assoc, h, List.singleton_append, hinner, Option.map_map,
    Option.map_map]
  apply congrArg (Option.map · (groupFrom depth tail))
  funext r
  simp [Markup.braced]

theorem group?_braced {cs : List Char} (h : Passes cs) (rest : List Char) :
    group? (Markup.braced cs ++ rest) = some (cs, rest) := by
  show groupFrom 0 (cs ++ ['}'] ++ rest) = some (cs, rest)
  rw [List.append_assoc, h, List.singleton_append, groupFrom_close]
  simp

theorem body?_annotated {note body : List Char} (hnote : Passes note) (hbody : Passes body)
    (rest : List Char) :
    body? (command ++ Markup.braced note ++ Markup.braced body ++ rest) = some (body, rest) := by
  rw [List.append_assoc, List.append_assoc, body?,
    if_pos (List.isPrefixOf_iff_prefix.2 (List.prefix_append _ _)), List.drop_left]
  rw [group?_braced hnote, Option.bind_some, group?_braced hbody]

/-! ## One step of stripping -/

theorem strip_nil : strip [] = [] := by
  rw [strip.eq_def]
  rfl

theorem strip_of_body? {cs body rest : List Char} (h : body? cs = some (body, rest)) :
    strip cs = strip body ++ strip rest := by
  rw [strip.eq_def]
  split
  · next body' rest' heq =>
    rw [h, Option.some.injEq, Prod.mk.injEq] at heq
    rw [heq.1, heq.2]
  · next heq =>
    rw [h] at heq
    exact absurd heq (by simp)

theorem body?_eq_none {cs : List Char} (h : ¬ command <+: cs) : body? cs = none := by
  rw [body?, if_neg]
  rwa [List.isPrefixOf_iff_prefix]

theorem strip_cons {c : Char} {cs : List Char} (h : ¬ command <+: c :: cs) :
    strip (c :: cs) = c :: strip cs := by
  rw [strip.eq_def]
  split
  · next heq =>
    rw [body?_eq_none h] at heq
    exact absurd heq (by simp)
  · rfl

/-- The command begins nowhere in `cs` when `rest` follows. -/
def NoCommand (cs rest : List Char) : Prop :=
  ∀ s, s <:+ cs → s ≠ [] → ¬ command <+: s ++ rest

theorem strip_append {cs rest : List Char} (h : NoCommand cs rest) :
    strip (cs ++ rest) = cs ++ strip rest := by
  induction cs with
  | nil => rfl
  | cons c cs ih =>
    have hhead : ¬ command <+: c :: (cs ++ rest) :=
      h (c :: cs) (List.suffix_refl _) (List.cons_ne_nil _ _)
    have htail : NoCommand cs rest := fun s hs => h s (hs.trans (List.suffix_cons c cs))
    rw [List.cons_append, strip_cons hhead, ih htail, List.cons_append]

theorem NoCommand.mono {cs rest rest' : List Char} (h : NoCommand cs rest') (hle : rest <+: rest') :
    NoCommand cs rest := by
  intro s hs hne hcommand
  exact h s hs hne (hcommand.trans ((List.prefix_append_right_inj s).2 hle))

theorem noCommand_cons {c : Char} {cs rest : List Char} (hc : ¬ command <+: c :: (cs ++ rest))
    (hcs : NoCommand cs rest) : NoCommand (c :: cs) rest := by
  intro s hs hne
  rcases List.suffix_cons_iff.1 hs with rfl | hs
  · exact hc
  · exact hcs s hs hne

theorem noCommand_append {as bs rest : List Char} (ha : NoCommand as (bs ++ rest))
    (hb : NoCommand bs rest) : NoCommand (as ++ bs) rest := by
  induction as with
  | nil => exact hb
  | cons c cs ih =>
    have hhead := ha (c :: cs) (List.suffix_refl _) (List.cons_ne_nil _ _)
    rw [← List.append_assoc] at hhead
    exact noCommand_cons hhead (ih fun s hs => ha s (hs.trans (List.suffix_cons c cs)))

/-- A backslash is the only character at which the command can begin. -/
theorem noCommand_of_no_slash {cs : List Char} (h : '\\' ∉ cs) (rest : List Char) :
    NoCommand cs rest := by
  induction cs with
  | nil => exact fun s hs hne => absurd (List.suffix_nil.1 hs) hne
  | cons c cs ih =>
    refine noCommand_cons ?_ (ih fun hmem => h (List.mem_cons_of_mem c hmem))
    intro hcommand
    rw [← (List.cons_prefix_cons.1 hcommand).1] at h
    exact h List.mem_cons_self

theorem noCommand_of_plain {cs : List Char} (h : cs.all isPlainChar = true) (rest : List Char) :
    NoCommand cs rest :=
  noCommand_of_no_slash (no_slash_of_plain h) rest

/-- Another command is told apart by its first letter. -/
theorem noCommand_of_name {c : Char} {cs : List Char} (hc : c ≠ 'h')
    (hcs : '\\' ∉ c :: cs) (rest : List Char) : NoCommand ('\\' :: c :: cs) rest := by
  refine noCommand_cons ?_ (noCommand_of_no_slash hcs rest)
  intro hcommand
  exact hc (List.cons_prefix_cons.1 (List.cons_prefix_cons.1 hcommand).2).1.symm

end Annotations

namespace Markup

open Annotations

/-! ## Whole pieces of markup -/

/-- Braces stand only where groups and annotations put them. -/
def Plain : Markup → Prop
  | text cs => cs.all (fun c => !isBrace c) = true
  | seq a b => a.Plain ∧ b.Plain
  | group m => m.Plain
  | annotated note m => note.all (fun c => !isBrace c) = true ∧ m.Plain

instance decidablePlain : DecidablePred Plain
  | text cs => inferInstanceAs (Decidable (cs.all (fun c => !isBrace c) = true))
  | seq a b =>
    have := decidablePlain a
    have := decidablePlain b
    inferInstanceAs (Decidable (a.Plain ∧ b.Plain))
  | group m => decidablePlain m
  | annotated note m =>
    have := decidablePlain m
    inferInstanceAs (Decidable (note.all (fun c => !isBrace c) = true ∧ m.Plain))

/-- The command begins only at annotations when `rest` follows. -/
def Headed : Markup → List Char → Prop
  | text cs, rest => NoCommand cs rest
  | seq a b, rest => a.Headed (b.render ++ rest) ∧ b.Headed rest
  | group m, rest => m.Headed ('}' :: rest)
  | annotated _ m, rest => m.Headed ('}' :: rest)

theorem passes_render {m : Markup} (h : m.Plain) : Passes m.render := by
  induction m with
  | text cs => exact passes_of_no_brace h
  | seq a b iha ihb => exact (iha h.1).append (ihb h.2)
  | group m ih => exact (ih h).braced
  | annotated note m ih =>
    have hcommand : Passes command := passes_of_no_brace (by decide)
    exact (hcommand.append (passes_of_no_brace h.1).braced).append (ih h.2).braced

theorem Headed.mono {m : Markup} {rest rest' : List Char} (h : m.Headed rest')
    (hle : rest <+: rest') : m.Headed rest := by
  induction m generalizing rest rest' with
  | text cs => exact NoCommand.mono h hle
  | seq a b iha ihb => exact ⟨iha h.1 ((List.prefix_append_right_inj _).2 hle), ihb h.2 hle⟩
  | group m ih => exact ih h (List.cons_prefix_cons.2 ⟨rfl, hle⟩)
  | annotated note m ih => exact ih h (List.cons_prefix_cons.2 ⟨rfl, hle⟩)

theorem strip_render_append {m : Markup} {rest : List Char} (hplain : m.Plain)
    (hheaded : m.Headed rest) : strip (m.render ++ rest) = m.content ++ strip rest := by
  induction m generalizing rest with
  | text cs => exact strip_append hheaded
  | seq a b iha ihb =>
    rw [render, List.append_assoc, iha hplain.1 hheaded.1, ihb hplain.2 hheaded.2, content,
      List.append_assoc]
  | group m ih =>
    have hopen := noCommand_of_no_slash (by decide : '\\' ∉ ['{'])
    have hclose := noCommand_of_no_slash (by decide : '\\' ∉ ['}'])
    have hbody : m.Headed (['}'] ++ rest) := hheaded
    calc strip ((group m).render ++ rest)
        = strip (['{'] ++ (m.render ++ (['}'] ++ rest))) := by simp [render, braced]
      _ = ['{'] ++ (m.content ++ (['}'] ++ strip rest)) := by
          rw [strip_append (hopen _), ih hplain hbody, strip_append (hclose _)]
      _ = (group m).content ++ strip rest := by simp [content, braced]
  | annotated note m ih =>
    -- the body is stripped on its own, with nothing after it
    have hbody : strip m.render = m.content := by
      have hhead : m.Headed ('}' :: rest) := hheaded
      have h := ih hplain.2 (hhead.mono List.nil_prefix)
      rwa [List.append_nil, strip_nil, List.append_nil] at h
    rw [render, strip_of_body? (body?_annotated (passes_of_no_brace hplain.1)
      (passes_render hplain.2) rest), hbody, content]

/-- The content of markup is what stripping leaves of its source. -/
theorem strip_render {m : Markup} (hplain : m.Plain) (hheaded : m.Headed []) :
    strip m.render = m.content := by
  have h := strip_render_append hplain hheaded
  rwa [List.append_nil, strip_nil, List.append_nil] at h

/-! ## Where the annotations of a source begin -/

/-- What an annotation writes in front of its body. -/
def opening (note : List Char) : List Char := command ++ braced note ++ ['{']

/-- The places in the source at which an annotation begins. -/
def headOffsets : Markup → List Nat
  | text _ => []
  | seq a b => a.headOffsets ++ b.headOffsets.map (a.render.length + ·)
  | group m => m.headOffsets.map (1 + ·)
  | annotated note m => 0 :: m.headOffsets.map ((opening note).length + ·)

theorem render_group (m : Markup) (rest : List Char) :
    (group m).render ++ rest = ['{'] ++ (m.render ++ '}' :: rest) := by
  simp [render, braced]

theorem render_annotated (note : List Char) (m : Markup) (rest : List Char) :
    (annotated note m).render ++ rest = opening note ++ (m.render ++ '}' :: rest) := by
  simp [render, braced, opening]

theorem length_render_group (m : Markup) : (group m).render.length = 1 + m.render.length + 1 := by
  simp [render, braced]
  omega

theorem length_render_annotated (note : List Char) (m : Markup) :
    (annotated note m).render.length = (opening note).length + m.render.length + 1 := by
  simp [render, braced, opening]
  omega

theorem mem_map_add_iff {k i : Nat} {is : List Nat} : k + i ∈ is.map (k + ·) ↔ i ∈ is := by
  rw [List.mem_map]
  constructor
  · rintro ⟨j, hj, heq⟩
    rwa [← Nat.add_left_cancel heq]
  · intro hi
    exact ⟨i, hi, rfl⟩

theorem lt_of_mem_headOffsets {m : Markup} {i : Nat} (h : i ∈ m.headOffsets) :
    i < m.render.length := by
  induction m generalizing i with
  | text cs => exact absurd h List.not_mem_nil
  | seq a b iha ihb =>
    rw [render, List.length_append]
    rcases List.mem_append.1 h with ha | hb
    · exact Nat.lt_add_right _ (iha ha)
    · obtain ⟨j, hj, rfl⟩ := List.mem_map.1 hb
      exact Nat.add_lt_add_left (ihb hj) _
  | group m ih =>
    obtain ⟨j, hj, rfl⟩ := List.mem_map.1 h
    have hlt := ih hj
    rw [length_render_group]
    omega
  | annotated note m ih =>
    rw [length_render_annotated]
    rcases List.mem_cons.1 h with rfl | h
    · exact Nat.succ_pos _
    · obtain ⟨j, hj, rfl⟩ := List.mem_map.1 h
      have hlt := ih hj
      omega

/-- Markup is headed when, before the rest, the command begins only at its annotations. -/
theorem headed_of_headOffsets {m : Markup} {rest : List Char}
    (h : ∀ i < m.render.length, command <+: (m.render ++ rest).drop i → i ∈ m.headOffsets) :
    m.Headed rest := by
  induction m generalizing rest with
  | text cs =>
    rintro s ⟨pre, rfl⟩ hne hcommand
    have hlt : pre.length < (pre ++ s).length := by
      rw [List.length_append]
      exact Nat.lt_add_of_pos_right (List.length_pos_iff.2 hne)
    have hmem := h pre.length hlt (by rwa [render, List.append_assoc, List.drop_left])
    exact absurd hmem List.not_mem_nil
  | seq a b iha ihb =>
    rw [render, List.length_append, List.append_assoc] at h
    refine ⟨iha fun i hi hcommand => ?_, ihb fun i hi hcommand => ?_⟩
    · rcases List.mem_append.1 (h i (Nat.lt_add_right _ hi) hcommand) with hmem | hmem
      · exact hmem
      · obtain ⟨j, -, rfl⟩ := List.mem_map.1 hmem
        omega
    · rw [← List.drop_length_add_append] at hcommand
      rcases List.mem_append.1 (h _ (Nat.add_lt_add_left hi _) hcommand) with hmem | hmem
      · have hlt := lt_of_mem_headOffsets hmem
        omega
      · exact mem_map_add_iff.1 hmem
  | group m ih =>
    rw [render_group, length_render_group] at h
    refine ih fun i hi hcommand => mem_map_add_iff.1 (h (1 + i) (by omega) ?_)
    rw [Nat.add_comm]
    exact hcommand
  | annotated note m ih =>
    rw [render_annotated, length_render_annotated] at h
    refine ih fun i hi hcommand => ?_
    have hmem := h ((opening note).length + i) (by omega)
      (by rwa [List.drop_length_add_append])
    rcases List.mem_cons.1 hmem with hzero | hmem
    · rw [opening, List.length_append, List.length_singleton] at hzero
      omega
    · exact mem_map_add_iff.1 hmem

/-- Stripping the source of markup leaves its content when braces stand only where groups and
annotations put them and the command begins only at annotations. -/
theorem stripText_render {m : Markup} (hplain : m.Plain)
    (hheads : ∀ i < m.render.length, command <+: m.render.drop i → i ∈ m.headOffsets) :
    stripText (String.ofList m.render) = String.ofList m.content := by
  have hheaded : m.Headed [] := headed_of_headOffsets (by rwa [List.append_nil])
  rw [stripText, String.toList_ofList, strip_render hplain hheaded]

/-- An annotation in a group in the body of another one. -/
theorem stripText_nested :
    let m : Markup := .seq (.ofString "a") (.annotated "b=\\c".toList (.seq (.ofString "\\frac")
      (.seq (.group (.annotated [] (.ofString "1"))) (.group (.text [])))))
    m.Plain ∧ (∀ i < m.render.length, command <+: m.render.drop i → i ∈ m.headOffsets) ∧
      stripText (String.ofList m.render) = "a\\frac\x7b1\x7d\x7b\x7d" :=
  ⟨by decide +kernel, by decide +kernel,
    (stripText_render (by decide +kernel) (by decide +kernel)).trans (by decide +kernel)⟩

end Markup
end FormulaMap

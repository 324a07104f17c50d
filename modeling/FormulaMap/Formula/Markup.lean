/-
Typeset source with annotations.

A piece of source is text, a sequence, a group in braces, or a body to which a
note is attached.  `Markup.render` writes it out; an annotation becomes the
command `\htmlData` with the note and the body in braces.  `Markup.content` is
the source that is left when the notes are dropped.  `strip` works on text: it
replaces every annotation that is complete by its body, from the outside in, and
leaves everything else alone.
-/

namespace FormulaMap

inductive Markup where
  | text (cs : List Char)
  | seq (first second : Markup)
  | group (body : Markup)
  | annotated (note : List Char) (body : Markup)
  deriving DecidableEq, Repr

namespace Markup

/-- The command that attaches a note to a body. -/
def command : List Char := "\\htmlData".toList

def braced (cs : List Char) : List Char := '{' :: cs ++ ['}']

def render : Markup → List Char
  | text cs => cs
  | seq a b => a.render ++ b.render
  | group m => braced m.render
  | annotated note m => command ++ braced note ++ braced m.render

/-- The same source without its notes. -/
def content : Markup → List Char
  | text cs => cs
  | seq a b => a.content ++ b.content
  | group m => braced m.content
  | annotated _ m => m.content

/-- The notes from left to right. -/
def notes : Markup → List (List Char)
  | text _ => []
  | seq a b => a.notes ++ b.notes
  | group m => m.notes
  | annotated note m => note :: m.notes

def ofString (s : String) : Markup := text s.toList

end Markup

namespace Annotations

/-- The inside of a group whose opening brace has been read, and what follows
its closing brace; `depth` further groups are open. -/
def groupFrom : Nat → List Char → Option (List Char × List Char)
  | _, [] => none
  | depth, c :: cs =>
    if c = '}' ∧ depth = 0 then some ([], cs)
    else
      let deeper := if c = '{' then depth + 1 else if c = '}' then depth - 1 else depth
      (groupFrom deeper cs).map fun r => (c :: r.1, r.2)

/-- The inside of the group at the start of a text, and what follows it. -/
def group? : List Char → Option (List Char × List Char)
  | '{' :: cs => groupFrom 0 cs
  | _ => none

/-- The body of the annotation at the start of a text, and what follows it. -/
def body? (cs : List Char) : Option (List Char × List Char) :=
  if Markup.command.isPrefixOf cs then
    (group? (cs.drop Markup.command.length)).bind fun note => group? note.2
  else none

theorem length_groupFrom {depth : Nat} {cs inside rest : List Char}
    (h : groupFrom depth cs = some (inside, rest)) : inside.length + rest.length < cs.length := by
  induction cs generalizing depth inside with
  | nil => simp [groupFrom] at h
  | cons c cs ih =>
    rw [groupFrom] at h
    split at h
    · simp only [Option.some.injEq, Prod.mk.injEq] at h
      obtain ⟨rfl, rfl⟩ := h
      simp
    · simp only [Option.map_eq_some_iff] at h
      obtain ⟨⟨i, r⟩, hr, he⟩ := h
      simp only [Prod.mk.injEq] at he
      obtain ⟨rfl, rfl⟩ := he
      have := ih hr
      simp only [List.length_cons]
      omega

theorem length_group? {cs inside rest : List Char} (h : group? cs = some (inside, rest)) :
    inside.length + rest.length < cs.length := by
  unfold group? at h
  split at h
  · have := length_groupFrom h
    simp only [List.length_cons]
    omega
  · simp at h

theorem length_body? {cs body rest : List Char} (h : body? cs = some (body, rest)) :
    body.length + rest.length < cs.length := by
  unfold body? at h
  split at h
  · simp only [Option.bind_eq_some_iff] at h
    obtain ⟨⟨note, tail⟩, hnote, hbody⟩ := h
    have h₁ := length_group? hnote
    have h₂ := length_group? hbody
    simp only [List.length_drop] at h₁
    simp only at h₂
    omega
  · simp at h

/-- A text with every complete annotation replaced by its body. -/
def strip (cs : List Char) : List Char :=
  match _h : body? cs with
  | some (body, rest) => strip body ++ strip rest
  | none =>
    match cs with
    | [] => []
    | c :: cs => c :: strip cs
  termination_by cs.length
  decreasing_by
    · have := length_body? _h
      omega
    · have := length_body? _h
      omega
    · simp

def stripText (s : String) : String := String.ofList (strip s.toList)

end Annotations
end FormulaMap

/-
Paths in the data attributes of a layout.

The renderer copies the notes of annotated source to data attributes.  A path
can be recovered from the nearest annotated element above an atom, and the paths
of joined atoms can be written to elements that have none.  The report says
which atoms a user can act on are still without a path.
-/
import FormulaMap.Layout.Element
import FormulaMap.Surface.Node

namespace FormulaMap

namespace Attribute

def path : String := "ast-id"
def role : String := "role"
def operator : String := "operator"

/-- The class of the element that the renderer draws into. -/
def containerClass : String := "formula-render-area"

end Attribute

namespace Tree

/-- The values on the way to an address, from the root down. -/
def valuesTo {α : Type} (t : Tree α) : Address → List α
  | [] => [t.value]
  | i :: rest =>
    t.value ::
      match t.children[i]? with
      | some c => c.valuesTo rest
      | none => []

theorem valuesTo_concat {α : Type} {t s : Tree α} {a : Address} {i : Nat} (h : t.at? (a ++ [i]) = some s) :
    t.valuesTo (a ++ [i]) = t.valuesTo a ++ [s.value] := by
  induction a generalizing t with
  | nil =>
    obtain ⟨c, hc, hs⟩ := Option.bind_eq_some_iff.1 h
    obtain rfl := Option.some.inj hs
    simp only [List.nil_append, valuesTo, hc, List.singleton_append]
  | cons j rest ih =>
    obtain ⟨c, hc, hs⟩ := Option.bind_eq_some_iff.1 h
    rw [List.cons_append, valuesTo, valuesTo, hc]
    exact congrArg (List.cons t.value) (ih hs)

end Tree

namespace Layout

variable {α : Type}

/-- The first annotated element of a line of elements, if none before it draws. -/
def firstAnnotated : List (Element α) → Option (Element α)
  | [] => none
  | e :: es =>
    if (e.attribute? Attribute.path).isSome then some e
    else if e.hasClass Attribute.containerClass then none
    else firstAnnotated es

/-- The nearest annotated element above an address, or at it. -/
def annotated? (l : Layout α) (a : Address) : Option (Element α) :=
  firstAnnotated (l.valuesTo a).reverse

end Layout

/-- The atoms that a user acts on, counted, and those among them without a path. -/
structure PathReport where
  checked : Nat
  missing : List String
  deriving DecidableEq, Repr

namespace PathReport

def ok (r : PathReport) : Bool := r.missing.isEmpty

end PathReport

namespace SurfaceMap

variable {α : Type}

/-! ## Recovering -/

/-- The element from which the path of an atom would be recovered. -/
def sourceOfPath? (layout : Layout α) (n : Node α) : Option (Element α) :=
  if n.atom && !n.isJoined then layout.annotated? n.source else none

def recoverFrom (e : Element α) (n : Node α) : Node α :=
  { n with
    path := e.attribute? Attribute.path
    role := (e.attribute? Attribute.role).getD n.role
    operator := n.operator.or (e.attribute? Attribute.operator)
    marks := { n.marks with recovered := true } }

def recoverNode (layout : Layout α) (n : Node α) : Node α :=
  match sourceOfPath? layout n with
  | some e => recoverFrom e n
  | none => n

/-- Fills the paths of unjoined atoms from the layout, and counts them. -/
def recover (layout : Layout α) (m : SurfaceMap α) : SurfaceMap α × Nat :=
  (m.mapNodes (recoverNode layout), m.nodes.countP fun n => (sourceOfPath? layout n).isSome)

/-! ## Writing -/

def describe (n : Node α) (path : String) (e : Element α) : Element α :=
  let e := e.setAttribute Attribute.path path
  if n.kind.isNumber then e.setAttribute Attribute.role "number"
  else
    match n.operator with
    | some o => (e.setAttribute Attribute.role "operator").setAttribute Attribute.operator o
    | none => e

/-- Whether the element of an atom can take its path. -/
def isFree (layout : Layout α) (n : Node α) : Bool :=
  match layout.at? n.source with
  | some l => (l.value.attribute? Attribute.path).isNone
  | none => false

def injectNode (state : Layout α × Nat) (n : Node α) : Layout α × Nat :=
  match n.joined? with
  | some path =>
    if isFree state.1 n then (state.1.modifyAt (describe n path) n.source, state.2 + 1) else state
  | none => state

/-- Writes the paths of joined atoms to elements that have none, and counts them. -/
def inject (m : SurfaceMap α) (layout : Layout α) : Layout α × Nat :=
  m.atoms.foldl injectNode (layout, 0)

/-! ## Reporting -/

def report (m : SurfaceMap α) : PathReport :=
  let interactive := m.atoms.filter (·.kind.isInteractive)
  ⟨interactive.length, (interactive.filter fun n => !n.isJoined).map (·.id)⟩

end SurfaceMap
end FormulaMap

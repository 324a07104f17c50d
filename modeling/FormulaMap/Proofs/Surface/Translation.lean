/-
Where a layout stands on the page.

Boxes enter a map relative to the container, whose corner moves with the page.  So over
exact coordinates a layout that is moved as a whole gives the same tree, and the only
trace of the move is the origin of the map (`build_shift`).  The origin is read nowhere
but where a point of the page is hit: everything else that is done to a map commutes
with putting its origin elsewhere.
-/
import FormulaMap.Proofs.Geometry.Exact
import FormulaMap.Proofs.Layout.Mapping
import FormulaMap.Proofs.Surface.Placement
import FormulaMap.Surface.Enhance
import FormulaMap.Surface.Hit
import FormulaMap.Surface.Join
import FormulaMap.Surface.Operands

namespace FormulaMap

/-! ## Boxes -/

namespace Box

variable (b origin : Box Rat) (dx dy : Rat)

theorem relativeTo_shift :
    (b.shift dx dy).relativeTo (origin.shift dx dy) = b.relativeTo origin := by
  rw [Box.mk.injEq]
  refine ⟨?_, ?_, ?_, ?_⟩ <;> exact add_sub_add_right_eq_sub _ _ _

theorem width_shift : (b.shift dx dy).width = b.width :=
  congrArg (Coordinate.larger 0) (add_sub_add_right_eq_sub b.right b.left dx)

theorem height_shift : (b.shift dx dy).height = b.height :=
  congrArg (Coordinate.larger 0) (add_sub_add_right_eq_sub b.bottom b.top dy)

end Box

/-! ## Layouts -/

def Element.shift (dx dy : Rat) (e : Element Rat) : Element Rat :=
  { e with box := e.box.shift dx dy }

namespace Layout

/-- The layout with every box moved by an offset. -/
def shift (dx dy : Rat) (l : Layout Rat) : Layout Rat := l.map (Element.shift dx dy)

end Layout

/-! ## Building -/

namespace SurfaceMap

variable (dx dy : Rat)

/-- The map with its origin elsewhere on the page. -/
def withOrigin (origin : Box Rat) (m : SurfaceMap Rat) : SurfaceMap Rat :=
  { m with origin := origin }

/-- A layout that is moved gives the same map but for the origin. -/
theorem build_shift (t : Tolerances Rat) (container : Address) (layout : Layout Rat) :
    build t container (layout.shift dx dy) =
      (build t container layout).withOrigin (layout.value.box.shift dx dy) := by
  have hcontent : Element.SameContent (Element.shift dx dy) := ⟨fun _ => rfl, fun _ => rfl⟩
  have horigin : (layout.shift dx dy).value.box = layout.value.box.shift dx dy := by
    cases layout with
    | node e ts => rfl
  have hroot : rootNode (layout.value.box.shift dx dy) container =
      rootNode layout.value.box container := by
    rw [rootNode, rootNode, Box.width_shift, Box.height_shift]
  have hdrafts := drafts_map hcontent
    (fun e => Box.relativeTo_shift e.box layout.value.box dx dy) t container layout
  unfold build
  dsimp only
  rw [horigin, hroot, Layout.shift, hdrafts]
  rfl

/-! ## Refining and joining -/

variable (o : Box Rat) (m : SurfaceMap Rat)

theorem enhance_withOrigin (t : Tolerances Rat) :
    (m.withOrigin o).enhance t = (m.enhance t).withOrigin o := rfl

/-- A pass that joins pairs one after another does not read the origin when the joining of
one pair does not. -/
theorem foldl_withOrigin {ι : Type} {f : SurfaceMap Rat → ι → SurfaceMap Rat}
    (hf : ∀ m i, f (m.withOrigin o) i = (f m i).withOrigin o) (is : List ι) :
    is.foldl f (m.withOrigin o) = (is.foldl f m).withOrigin o :=
  List.foldl_hom (withOrigin o) hf

theorem numerals_withOrigin (leaves : List (Node Rat)) (ds : List NumeralDescriptor) :
    Join.numerals leaves ds (m.withOrigin o) =
      ((Join.numerals leaves ds m).1.withOrigin o, (Join.numerals leaves ds m).2) :=
  Prod.ext (foldl_withOrigin o m (fun _ _ => rfl) _) rfl

theorem operators_withOrigin (leaves : List (Node Rat)) (ds : List OperatorDescriptor) :
    Join.operators leaves ds (m.withOrigin o) =
      ((Join.operators leaves ds m).1.withOrigin o, (Join.operators leaves ds m).2) :=
  Prod.ext (foldl_withOrigin o m (fun _ _ => rfl) _) rfl

theorem joinPart_withOrigin (path : String) (part : Node Rat) :
    Join.joinPart path part (m.withOrigin o) = (Join.joinPart path part m).withOrigin o := by
  have hnode : (m.withOrigin o).nodeAt? part.number = m.nodeAt? part.number := rfl
  rw [Join.joinPart, Join.joinPart, hnode]
  cases m.nodeAt? part.number with
  | none => rfl
  | some n => cases hn : n.isJoined <;> simp only [hn] <;> rfl

theorem joinMixed_withOrigin (atoms : List (Node Rat)) (d : MixedDescriptor) (leaf : Node Rat) :
    Join.joinMixed atoms d leaf (m.withOrigin o) =
      (Join.joinMixed atoms d leaf m).withOrigin o := by
  have hparts := fun (joined : SurfaceMap Rat) (parts : List (Node Rat)) =>
    foldl_withOrigin (f := fun m p => Join.joinPart d.path p m) o joined
      (fun m p => joinPart_withOrigin o m d.path p) parts
  exact congrArg (Join.fillNumbersAbove d.path none leaf) (hparts (m.update leaf.number _) _)

theorem mixedNumbers_withOrigin (leaves : List (Node Rat)) (ds : List MixedDescriptor) :
    Join.mixedNumbers leaves ds (m.withOrigin o) =
      ((Join.mixedNumbers leaves ds m).1.withOrigin o, (Join.mixedNumbers leaves ds m).2) :=
  Prod.ext
    (foldl_withOrigin o m (fun m' p => joinMixed_withOrigin o m' m.atoms p.1 p.2) _) rfl

theorem joinOption_withOrigin (t : Tolerances Rat) (e : Option Expr) :
    (m.withOrigin o).joinOption t e =
      ((m.joinOption t e).1.withOrigin o, (m.joinOption t e).2) := by
  cases e with
  | none => rfl
  | some e =>
    show (m.withOrigin o).join t e = ((m.join t e).1.withOrigin o, (m.join t e).2)
    have hleaves : (m.withOrigin o).leaves t = m.leaves t := rfl
    simp only [join, hleaves, numerals_withOrigin, operators_withOrigin, mixedNumbers_withOrigin]

theorem origin_joinOption (t : Tolerances Rat) (e : Option Expr) :
    (m.joinOption t e).1.origin = m.origin :=
  congrArg (fun p => p.1.origin) (joinOption_withOrigin m.origin m t e)

/-- A point that moves with the origin hits the same atom. -/
theorem hit?_withOrigin_shift (t : Tolerances Rat) (x y : Rat) :
    (m.withOrigin (m.origin.shift dx dy)).hit? t (x + dx) (y + dy) = m.hit? t x y := by
  have hx : x + dx - (m.origin.left + dx) = x - m.origin.left := add_sub_add_right_eq_sub _ _ _
  have hy : y + dy - (m.origin.top + dy) = y - m.origin.top := add_sub_add_right_eq_sub _ _ _
  show firstLeast moreSpecific (m.atoms.filter
    (hits t (x + dx - (m.origin.left + dx)) (y + dy - (m.origin.top + dy)))) = _
  rw [hx, hy]
  rfl

/-- A layout that is moved on its page gives the same tree with the same pairs joined; a
point that is moved along hits the same atom, and a path has the same operands. -/
theorem joined_shift (t : Tolerances Rat) (container : Address) (layout : Layout Rat)
    (e : Option Expr) (dx dy : Rat) :
    let here := ((build t container layout).enhance t).joinOption t e
    let there := ((build t container (layout.shift dx dy)).enhance t).joinOption t e
    there.1.root = here.1.root ∧ there.2 = here.2 ∧
      (∀ x y, there.1.hit? t (x + dx) (y + dy) = here.1.hit? t x y) ∧
      ∀ path, there.1.operands? t path = here.1.operands? t path := by
  have hmoved : ((build t container (layout.shift dx dy)).enhance t).joinOption t e =
      ((((build t container layout).enhance t).joinOption t e).1.withOrigin
          (layout.value.box.shift dx dy),
        (((build t container layout).enhance t).joinOption t e).2) := by
    rw [build_shift, enhance_withOrigin, joinOption_withOrigin]
  have horigin : (((build t container layout).enhance t).joinOption t e).1.origin =
      layout.value.box := origin_joinOption _ t e
  intro here there
  refine ⟨?_, ?_, fun x y => ?_, fun path => ?_⟩
  · exact congrArg (fun p => p.1.root) hmoved
  · exact congrArg (fun p => p.2) hmoved
  · show (((build t container (layout.shift dx dy)).enhance t).joinOption t e).1.hit? t _ _ = _
    rw [hmoved, ← horigin]
    exact hit?_withOrigin_shift dx dy _ t x y
  · show (((build t container (layout.shift dx dy)).enhance t).joinOption t e).1.operands? t _ = _
    rw [hmoved]
    rfl

end SurfaceMap
end FormulaMap

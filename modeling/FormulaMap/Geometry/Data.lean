/-
Boxes and tolerances as data.

A box from outside has four sides and must be the right way round.  Tolerances
may come from a record or from the environment, where the variable of a setting
is its name in capitals behind `variableStem`; a blank variable counts as unset.
-/
import FormulaMap.Geometry.Box
import FormulaMap.Geometry.Tolerances
import FormulaMap.Record.Field

namespace FormulaMap

namespace Box

def toJson (b : Box Float) : Json :=
  .obj [("left", .float b.left), ("top", .float b.top), ("right", .float b.right),
    ("bottom", .float b.bottom)]

def extentRule : String := "bbox right/bottom must be >= left/top"

def isInverted (b : Box Float) : Bool := b.right < b.left || b.bottom < b.top

def sideNames : List String := ["left", "top", "right", "bottom"]

def ofJson (v : Json) : Checked (Box Float) :=
  match Field.record v with
  | .error ps => .error ps
  | .ok fs =>
    let side (name : String) := Field.required fs name Field.float
    let sides : Checked (Box Float) :=
      .map2 (fun (l, t) (r, b) => ⟨l, t, r, b⟩) (.both (side "left") (side "top"))
        (.both (side "right") (side "bottom"))
    Checked.ensure (fun b => if b.isInverted then some (.rule extentRule) else none)
      (Checked.alsoOk sides (Field.noOthers fs sideNames))

end Box

namespace Tolerances

/-- The settings in order, by name. -/
def entries (t : Tolerances Float) : List (String × Float) :=
  [("fracbar_expand_px", t.barExpansion), ("mixed_gap_px", t.mixedGap),
   ("minus_overlap_ratio", t.minusOverlap), ("column_overlap_ratio", t.columnOverlap),
   ("operand_center_tolerance_px", t.operandCenter),
   ("operator_hit_tolerance_px", t.operatorHit), ("min_visible_size_px", t.minVisible)]

def names : List String := (standard.entries).map (·.1)

def toJson (t : Tolerances Float) : Json := .obj (t.entries.map fun (k, x) => (k, .float x))

/-- What a problem report calls a record of tolerances. -/
def recordName : String := "SurfaceConfig"

def ofFields (fs : Fields Json) : Checked (Tolerances Float) :=
  let read (name : String) (default : Float) :=
    Field.withDefault fs name default Field.nonNegativeFloat
  let values := Checked.all (standard.entries.map fun (k, x) => read k x)
  match Checked.alsoOk values (Field.noOthers fs names) with
  | .error ps => .error ps
  | .ok [a, b, c, d, e, f, g] => .ok ⟨a, b, c, d, e, f, g⟩
  | .ok _ => .ok standard

def ofJson (v : Json) : Checked (Tolerances Float) := do ofFields (← Field.record v)

/-- What stands before the name of a setting in the environment. -/
def variableStem : String := "MATHSURF_"

def variableName (name : String) : String :=
  variableStem ++ String.ofList (name.toList.map Char.toUpper)

def ofEnvironment (environment : String → Option String) : Checked (Tolerances Float) :=
  ofFields <| names.filterMap fun name =>
    ((environment (variableName name)).map Text.trim).bind fun s =>
      if s.isEmpty then none else some (name, .str s)

/-- Tolerances do not change once they are made. -/
def assign (name : String) : Checked (Tolerances Float) :=
  Checked.under name (Checked.fail .frozen)

end Tolerances
end FormulaMap

/-
Layout snapshots: layouts as data.

Every element has a box; everything else may be left out.  Unknown fields are
refused.  Writing leaves out empty text, data and children.
-/
import FormulaMap.Geometry.Data
import FormulaMap.Layout.Element

namespace FormulaMap
namespace Layout

/-- What a problem report calls an element. -/
def recordName : String := "VisualElementPayload"

def fieldNames : List String := ["classes", "text", "bbox", "data", "children"]

/-! ## Reading -/

/-- An element from its fields, its children being read already. -/
def ofParts (fs : Fields Json) (children : Option (Checked (List (Layout Float)))) :
    Checked (Layout Float) :=
  let own : Checked (Element Float) :=
    .map2 (fun (classes, text) (box, data) => ⟨classes, text, box, data⟩)
      (.both (Field.withDefault fs "classes" [] (Field.list Field.string))
        (Field.withDefault fs "text" "" Field.string))
      (.both (Field.required fs "bbox" Box.ofJson) (Field.withDefault fs "data" [] Field.texts))
  Checked.alsoOk (.map2 Tree.node own (Checked.under "children" (children.getD (.ok []))))
    (Field.noOthers fs fieldNames)

mutual

def ofJson : Json → Checked (Layout Float)
  | .obj fs => ofParts fs (childrenOf fs)
  | _ => .fail .recordExpected

/-- What stands under the key of the children, if it is there. -/
def childrenOf : List (String × Json) → Option (Checked (List (Layout Float)))
  | [] => none
  | (k, v) :: fs => if k == "children" then some (listOf v) else childrenOf fs

def listOf : Json → Checked (List (Layout Float))
  | .arr xs => itemsFrom 0 xs
  | _ => .fail .listExpected

def itemsFrom (i : Nat) : List Json → Checked (List (Layout Float))
  | [] => .ok []
  | x :: xs => .map2 (fun t ts => t :: ts) (Checked.under (Nat.repr i) (ofJson x)) (itemsFrom (i + 1) xs)

end

/-! ## Writing -/

def elementFields (e : Element Float) : Fields Json :=
  [("classes", .arr (e.classes.map .str)), ("bbox", e.box.toJson)] ++
    (if e.text.isEmpty then [] else [("text", .str e.text)]) ++
    (if e.data.isEmpty then [] else [("data", .obj (e.data.map fun (k, s) => (k, .str s)))])

mutual

def toJson : Layout Float → Json
  | .node e [] => .obj (elementFields e)
  | .node e (t :: ts) => .obj (elementFields e ++ [("children", .arr (toJsonAll (t :: ts)))])

def toJsonAll : List (Layout Float) → List Json
  | [] => []
  | t :: ts => toJson t :: toJsonAll ts

end

end Layout
end FormulaMap

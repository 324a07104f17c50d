/-
Surface maps as data: the tree of nodes and the identifiers of the atoms.
-/
import FormulaMap.Geometry.Data
import FormulaMap.Surface.Node

namespace FormulaMap
namespace SurfaceMap

def optionalField (key : String) (v : Option Json) : Fields Json :=
  (v.map fun j => (key, j)).toList

/-- The fields of a node in order; what is missing is left out. -/
def nodeFields (n : Node Float) (children : List Json) : Fields Json :=
  [("id", .str n.id), ("kind", .str n.kind.name), ("role", .str n.role)] ++
    optionalField "operatorIndex" (n.slot.map .ofNat) ++
    [("bbox", n.box.toJson), ("text", .str n.text)] ++
    optionalField "astNodeId" (n.path.map .str) ++
    [("children", .arr children)]

mutual

def treeJson : Tree (Node Float) → Json
  | .node n ts => .obj (nodeFields n (treeJsonAll ts))

def treeJsonAll : List (Tree (Node Float)) → List Json
  | [] => []
  | t :: ts => treeJson t :: treeJsonAll ts

end

def toJson (m : SurfaceMap Float) : Json :=
  .obj [("root", treeJson m.root), ("atoms", .arr (m.atoms.map fun n => .str n.id))]

end SurfaceMap
end FormulaMap

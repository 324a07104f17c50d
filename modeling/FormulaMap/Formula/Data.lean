/-
Expressions as data.

A node is an object whose `node` field names its kind.  Writing leaves out the
path of a node that has none, and `Expr.toPlainJson` leaves out every path.
Reading refuses unknown kinds and empty texts, and takes no notice of fields it
does not know.
-/
import FormulaMap.Formula.Expr
import FormulaMap.Record.Field

namespace FormulaMap
namespace Expr

/-! ## Writing -/

/-- The name of a node's kind. -/
def tag : Expr → String
  | numeral .. => "integer"
  | binary .. => "binaryOp"
  | negation .. => "unaryOp"
  | fraction .. => "fraction"
  | mixed .. => "mixed"

def pathField (p : Option String) : List (String × Json) :=
  match p with
  | some s => [("path", .str s)]
  | none => []

def toJson : Expr → Json
  | numeral t p => .obj ([("node", .str "integer"), ("value", .str t)] ++ pathField p)
  | binary o l r p =>
    .obj ([("node", .str "binaryOp"), ("op", .str o.symbol), ("left", l.toJson), ("right", r.toJson)] ++
      pathField p)
  | negation a p =>
    .obj ([("node", .str "unaryOp"), ("op", .str "-"), ("arg", a.toJson)] ++ pathField p)
  | fraction n d p =>
    .obj ([("node", .str "fraction"), ("args", .arr [n.toJson, d.toJson])] ++ pathField p)
  | mixed w n d p =>
    .obj ([("node", .str "mixed"), ("whole", .str w), ("numerator", .str n), ("denominator", .str d)] ++
      pathField p)

def toPlainJson (e : Expr) : Json := e.toJson.without "path"

/-! ## Reading -/

def readPath (fs : Fields Json) : Checked (Option String) :=
  Field.withDefault fs "path" none (Field.optional Field.string)

def readNumeral (fs : Fields Json) : Checked Expr :=
  .map2 numeral (Field.required fs "value" Field.nonEmptyString) (readPath fs)

def readMixed (fs : Fields Json) : Checked Expr :=
  .map2 (fun (w, n, d) p => mixed w n d p)
    (.both (Field.required fs "whole" Field.nonEmptyString)
      (.both (Field.required fs "numerator" Field.nonEmptyString)
        (Field.required fs "denominator" Field.nonEmptyString)))
    (readPath fs)

def readOperation (v : Json) : Checked BinaryOperation :=
  match v with
  | .str s =>
    match BinaryOperation.ofSymbol? s with
    | some o => .ok o
    | none => .fail .literalMismatch
  | _ => .fail .literalMismatch

/-- A child node under its key, or the problem that it is missing. -/
def childAt (key : String) (child : Option (Checked Expr)) : Checked Expr :=
  (child.getD (.fail .missing)).under key

/-- The two arguments of a fraction.  More than two are refused whatever they are. -/
def readArguments (args : Option (Option (List (Checked Expr)))) : Checked (Expr × Expr) :=
  Checked.under "args" <|
    match args with
    | none => .fail .missing
    | some none => .fail .listExpected
    | some (some cs) =>
      if 2 < cs.length then .fail .listTooLong
      else
        match Checked.all (cs.zipIdx.map fun (c, i) => c.under (Nat.repr i)) with
        | .error ps => .error ps
        | .ok [n, d] => .ok (n, d)
        | .ok _ => .fail .listTooShort

mutual

def readNode : Json → Checked Expr
  | .obj fs =>
    match Fields.get? "node" fs with
    | none => .fail .tagMissing
    | some (.str "integer") => (readNumeral fs).under "integer"
    | some (.str "mixed") => (readMixed fs).under "mixed"
    | some (.str "binaryOp") =>
      Checked.under "binaryOp" <|
        .map2 (fun (o, l, r) p => binary o l r p)
          (.both (Field.required fs "op" readOperation)
            (.both (childAt "left" (readChild "left" fs)) (childAt "right" (readChild "right" fs))))
          (readPath fs)
    | some (.str "unaryOp") =>
      Checked.under "unaryOp" <|
        .map2 (fun (_, a) p => negation a p)
          (.both (Field.withDefault fs "op" "-" (Field.oneOf ["-"]))
            (childAt "arg" (readChild "arg" fs)))
          (readPath fs)
    | some (.str "fraction") =>
      Checked.under "fraction" <|
        .map2 (fun (n, d) p => fraction n d p) (readArguments (readArgs fs)) (readPath fs)
    | some _ => .fail .tagUnknown
  | _ => .fail .taggedRecordExpected

/-- The node under a key, if the key is there. -/
def readChild (key : String) : List (String × Json) → Option (Checked Expr)
  | [] => none
  | (k, v) :: fs => if k == key then some (readNode v) else readChild key fs

/-- The nodes in the list under `args`; `some none` when the value is no list. -/
def readArgs : List (String × Json) → Option (Option (List (Checked Expr)))
  | [] => none
  | (k, v) :: fs => if k == "args" then some (readList v) else readArgs fs

def readList : Json → Option (List (Checked Expr))
  | .arr xs => some (readItems xs)
  | _ => none

def readItems : List Json → List (Checked Expr)
  | [] => []
  | x :: xs => readNode x :: readItems xs

end

def ofJson (v : Json) : Checked Expr := readNode v

end Expr
end FormulaMap

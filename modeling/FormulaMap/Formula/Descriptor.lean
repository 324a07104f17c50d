/-
Descriptors: the numerals, operators and mixed numbers of an expression as flat
lists in reading order.

Each list is what the surface is paired with, item by item.  A node without a
path cannot be addressed and has no descriptor.
-/
import FormulaMap.Formula.Path

namespace FormulaMap

structure NumeralDescriptor where
  path : String
  text : String
  position : Nat
  deriving DecidableEq, Repr

structure OperatorDescriptor where
  path : String
  symbol : String
  position : Nat
  arity : Nat
  deriving DecidableEq, Repr

structure MixedDescriptor where
  path : String
  whole : String
  numerator : String
  denominator : String
  position : Nat
  deriving DecidableEq, Repr

namespace Expr

/-- A path that is there and not empty. -/
def address? (p : Option String) : Option String := p.filter fun s => !s.isEmpty

def numeralEntries : Expr → List (String × String)
  | numeral t p => if t.isEmpty then [] else ((address? p).map fun a => (a, t)).toList
  | binary _ l r _ => l.numeralEntries ++ r.numeralEntries
  | negation a _ => a.numeralEntries
  | fraction n d _ => n.numeralEntries ++ d.numeralEntries
  | mixed _ _ _ _ => []

/-- Paths, symbols and arities, an operation between the operators of its operands. -/
def operatorEntries : Expr → List (String × String × Nat)
  | numeral _ _ => []
  | binary o l r p =>
    l.operatorEntries ++ ((address? p).map fun a => (a, o.symbol, 2)).toList ++ r.operatorEntries
  | negation e p => ((address? p).map fun a => (a, "-", 1)).toList ++ e.operatorEntries
  | fraction n d _ => n.operatorEntries ++ d.operatorEntries
  | mixed _ _ _ _ => []

def mixedEntry? : Expr → Option (String × String × String × String)
  | mixed w n d p => (address? p).map fun a => (a, w, n, d)
  | _ => none

def numerals (e : Expr) : List NumeralDescriptor :=
  e.numeralEntries.zipIdx.map fun ((p, t), i) => ⟨p, t, i⟩

def operators (e : Expr) : List OperatorDescriptor :=
  e.operatorEntries.zipIdx.map fun ((p, s, n), i) => ⟨p, s, i, n⟩

def mixedNumbers (e : Expr) : List MixedDescriptor :=
  (e.nodes.filterMap mixedEntry?).zipIdx.map fun ((p, w, n, d), i) => ⟨p, w, n, d, i⟩

end Expr
end FormulaMap

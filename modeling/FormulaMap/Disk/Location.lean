/-
Places of files: the names on the way from a directory to a file.

Empty names and single dots are dropped, so that every place has one text.
-/

namespace FormulaMap

structure Location where
  /-- Whether the way starts at the root or at the working directory. -/
  absolute : Bool
  names : List String
  deriving DecidableEq, Repr

namespace Location

def ofString (s : String) : Location where
  absolute := s.toList.head? = some '/'
  names :=
    ((s.toList.splitOn '/').map String.ofList).filter fun n => !(n.isEmpty || n == ".")

def text (l : Location) : String :=
  let way := "/".intercalate l.names
  if l.absolute then "/" ++ way else if way.isEmpty then "." else way

/-- The directory that a place is in; where the way starts there is nothing above. -/
def parent (l : Location) : Location := { l with names := l.names.dropLast }

/-- The directories above a place, the outermost first. -/
def above (l : Location) : List Location :=
  (List.range l.names.length).map fun n => { l with names := l.names.take n }

end Location
end FormulaMap

/-
A disk: which files and directories there are, and what the files hold.

Reading and opening fail for a cause that names the place.  Where the ways start,
at the root and at the working directory, there is always a directory.
-/
import FormulaMap.Disk.Location
import FormulaMap.Text.Lines
import FormulaMap.Text.Quoted

namespace FormulaMap

inductive DiskFault where
  | notFound
  | alreadyThere
  | notDirectory
  | isDirectory
  | noSpace
  deriving DecidableEq, Repr

structure DiskError where
  fault : DiskFault
  /-- The place that was asked for; a write that fails later names none. -/
  place : Option Location
  deriving DecidableEq, Repr

namespace DiskFault

def code : DiskFault → Nat
  | notFound => 2
  | alreadyThere => 17
  | notDirectory => 20
  | isDirectory => 21
  | noSpace => 28

def text : DiskFault → String
  | notFound => "No such file or directory"
  | alreadyThere => "File exists"
  | notDirectory => "Not a directory"
  | isDirectory => "Is a directory"
  | noSpace => "No space left on device"

end DiskFault

def DiskError.message (e : DiskError) : String :=
  "[Errno " ++ Nat.repr e.fault.code ++ "] " ++ e.fault.text ++
    match e.place with
    | some l => ": " ++ Text.quoted l.text
    | none => ""

inductive DiskEntry where
  | directory
  | file (text : String)
  /-- A device that takes no bytes. -/
  | fullDevice
  deriving DecidableEq, Repr

/-- The entries apart from those where the ways start. -/
abbrev Disk := List (Location × DiskEntry)

namespace Disk

def entry? (d : Disk) (l : Location) : Option DiskEntry :=
  if l.names.isEmpty then some .directory else (d.find? fun e => e.1 = l).map (·.2)

def set (l : Location) (e : DiskEntry) : Disk → Disk
  | [] => [(l, e)]
  | (k, x) :: d => if k = l then (l, e) :: d else (k, x) :: set l e d

/-- Why a place cannot be reached, if it cannot: the first thing on the way that
is no directory decides. -/
def obstacle? (d : Disk) (l : Location) : Option DiskFault :=
  match l.above.find? fun a => d.entry? a ≠ some .directory with
  | none => none
  | some a =>
    match d.entry? a with
    | none => some .notFound
    | some _ => some .notDirectory

/-- What is at a place, if it can be reached. -/
def look (d : Disk) (l : Location) : Except DiskError (Option DiskEntry) :=
  match d.obstacle? l with
  | some f => .error ⟨f, some l⟩
  | none => .ok (d.entry? l)

/-- The text of a file, with line ends unified. -/
def readText (d : Disk) (l : Location) : Except DiskError String := do
  match ← d.look l with
  | none => .error ⟨.notFound, some l⟩
  | some .directory => .error ⟨.isDirectory, some l⟩
  | some .fullDevice => .ok ""
  | some (.file s) => .ok (String.ofList (Text.unifyLineEnds s.toList))

/-- Makes one directory. -/
def makeDirectory (d : Disk) (l : Location) : Except DiskError Disk := do
  match ← d.look l with
  | none => .ok (d.set l .directory)
  | some .directory => .ok d
  | some _ => .error ⟨.alreadyThere, some l⟩

/-- Makes a directory and those above it; one that is there already is fine. -/
def makeDirectories (d : Disk) (l : Location) : Except DiskError Disk :=
  (l.above ++ [l]).foldlM
    (fun d a =>
      match d.makeDirectory a with
      | .ok d => .ok d
      | .error e => if a = l then .error e else .error ⟨.notDirectory, some l⟩)
    d

/-- Opens a file for writing, and makes it when it is missing. -/
def openFile (d : Disk) (l : Location) : Except DiskError (Disk × DiskEntry) := do
  match ← d.look l with
  | none => .ok (d.set l (.file ""), .file "")
  | some .directory => .error ⟨.isDirectory, some l⟩
  | some e => .ok (d, e)

/-- Replaces the text of a file. -/
def writeText (d : Disk) (l : Location) (s : String) : Except DiskError Disk := do
  match ← d.openFile l with
  | (d, .file _) => .ok (d.set l (.file s))
  | (d, .directory) => .ok d
  | (_, .fullDevice) => .error ⟨.noSpace, none⟩

/-- Appends to a file. -/
def appendText (d : Disk) (l : Location) (s : String) : Disk :=
  match d.entry? l with
  | some (.file t) => d.set l (.file (t ++ s))
  | _ => d

end Disk
end FormulaMap

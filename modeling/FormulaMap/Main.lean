/-
The command line: the two commands on real files.

The surface command runs on a copy of what stands at the places it is given and
above them; afterwards what it changed is written back.
-/
import FormulaMap.Command.Instrument
import FormulaMap.Command.Surface
import Std.Time.DateTime

namespace FormulaMap
namespace CommandLine

/-! ## Files -/

def lookAt (l : Location) : IO (Option DiskEntry) := do
  if l.text == "/dev/full" then
    return some .fullDevice
  try
    return some (.file (← IO.FS.readFile ⟨l.text⟩))
  catch
    | .noFileOrDirectory .. => return none
    | _ => return some .directory

/-- Adds a place, and what is above it, to a copy of the disk. -/
def copyPlace (d : Disk) (l : Location) : IO Disk :=
  (l.above ++ [l]).foldlM
    (fun d a => do
      if (d.entry? a).isSome || (d.obstacle? a).isSome then
        return d
      match ← lookAt a with
      | some e => return d.set a e
      | none => return d)
    d

/-- Makes the real disk like the copy where it was changed. -/
def writeBack (before after : Disk) : IO Unit :=
  for (l, e) in after do
    if before.entry? l ≠ some e then
      match e with
      | .directory => IO.FS.createDirAll ⟨l.text⟩
      | .file s => IO.FS.writeFile ⟨l.text⟩ s
      | .fullDevice => pure ()

/-! ## Stamps and variables -/

/-- How many stamps one run may need. -/
def stampCount : Nat := 16

def newStamp : IO Stamp := do
  let bytes ← IO.getRandomBytes 16
  let now ← Std.Time.Timestamp.now
  return Stamp.ofNumbers (bytes.foldl (fun n b => 256 * n + b.toNat) 0)
    (now.toNanosecondsSinceUnixEpoch.val.toNat / 1000)

def newStamps : IO (Nat → Stamp) := do
  let stamps ← (List.range stampCount).mapM fun _ => newStamp
  return fun n => stamps.getD n ⟨"", ""⟩

/-- The variables of the environment that hold tolerances. -/
def settings : IO (String → Option String) := do
  let found ← (Tolerances.names.map Tolerances.variableName).mapM fun name => do
    return (name, ← IO.getEnv name)
  return fun name => ((found.find? fun v => v.1 == name).map (·.2)).join

/-! ## Commands -/

def usage : List String :=
  ["usage: instrument [--print-ast] [--evaluate] [--json] latex",
   "       surface --latex LATEX [--hit X Y] [--operands PATH] [--out FILE] [--trace-out FILE] layout"]

/-- Prints what a command has to say, and gives its status. -/
def finish (r : CommandResult) : IO UInt32 := do
  IO.print r.output
  match r.ending with
  | .returned _ => pure ()
  | .refused .help => usage.forM IO.println
  | .refused _ => usage.forM IO.eprintln
  return r.ending.status.toUInt32

def surface (args : List String) : IO UInt32 := do
  let places :=
    match SurfaceCommand.Options.ofArguments args with
    | .ok o => o.layout :: (o.mapFile.toList ++ o.traceFile.toList)
    | .error _ => []
  let before ← (places.map Location.ofString).foldlM copyPlace []
  let (result, after) := SurfaceCommand.run args (← settings) (← newStamps) before
  writeBack before after
  finish result

end CommandLine
end FormulaMap

open FormulaMap in
def main (args : List String) : IO UInt32 :=
  match args with
  | "instrument" :: rest => CommandLine.finish (InstrumentCommand.run rest)
  | "surface" :: rest => CommandLine.surface rest
  | _ => do
    CommandLine.usage.forM IO.eprintln
    return 2

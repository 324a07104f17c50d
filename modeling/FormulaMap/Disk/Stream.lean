/-
Streams: files that are open for appending lines.

A line waits in the line buffer until that is full or flushed, and then in the
buffer of the device.  On a device that takes no bytes a write therefore fails
late: only when the buffers run over, or when the stream is flushed or closed.
-/
import FormulaMap.Disk.Basic

namespace FormulaMap

structure Stream where
  place : Location
  /-- Whether the device takes no bytes. -/
  full : Bool
  /-- What has been written. -/
  text : String
  /-- How many bytes wait in the line buffer. -/
  pending : Nat
  /-- How many bytes wait in the buffer of a full device. -/
  held : Nat
  deriving DecidableEq, Repr

namespace Stream

/-- The sizes of the two buffers in bytes. -/
def lineCapacity : Nat := 8192
def deviceCapacity : Nat := 4096

def outOfSpace : DiskError := ⟨.noSpace, none⟩

/-- Opens a file for appending and makes the directories above it. -/
def openAt (l : Location) (d : Disk) : Except DiskError (Disk × Stream) := do
  let d ← d.makeDirectories l.parent
  let (d, e) ← d.openFile l
  return (d, ⟨l, e = .fullDevice, "", 0, 0⟩)

/-- Empties the line buffer, and says whether the device took what was in it. -/
def pass (s : Stream) : Stream × Bool :=
  if s.full then
    if s.held + s.pending ≤ deviceCapacity then
      ({ s with pending := 0, held := s.held + s.pending }, true)
    else ({ s with pending := 0 }, false)
  else ({ s with pending := 0 }, true)

def put (line : String) (s : Stream) : Stream :=
  { s with text := s.text ++ line, pending := s.pending + line.utf8ByteSize }

/-- Writes a line, and says whether that went well.  A line that would fill the
line buffer by itself is not joined to what waits there. -/
def write (line : String) (s : Stream) : Stream × Bool :=
  let (s, ok) :=
    if 0 < s.pending && lineCapacity ≤ line.utf8ByteSize then s.pass else (s, true)
  if ok then
    let s := s.put line
    if lineCapacity ≤ s.pending then s.pass else (s, true)
  else (s, false)

def flush (s : Stream) : Stream × Bool :=
  let (s, ok) := s.pass
  (s, ok && s.held = 0)

/-- Closes a stream: the file has what was written, and it is known whether that
went well. -/
def close (s : Stream) (d : Disk) : Disk × Bool :=
  (d.appendText s.place s.text, s.flush.2)

end Stream
end FormulaMap

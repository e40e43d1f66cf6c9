import AsmIndex.Files
import AsmIndex.OrderedMap

/-!
Files in memory. Every write advances a clock and stamps the file with it. Reads of a path can be
held back at a gate, or made to fail while the file keeps its existence and its time.
-/

namespace AsmIndex

/-- The text of a file and the time of its last write. -/
structure MemoryFile where
  content : String
  modified : Nat
deriving DecidableEq, Repr

/-- Files in memory, with the number of reads of each path. -/
structure Memory where
  files : OrderedMap Path MemoryFile := OrderedMap.empty
  clock : Nat := 0
  reads : OrderedMap Path Nat := OrderedMap.empty
  gated : OrderedMap Path Unit := OrderedMap.empty
  failing : OrderedMap Path Unit := OrderedMap.empty

namespace Memory

instance : Inhabited Memory := ⟨{}⟩

/-- Write a file. -/
def write (m : Memory) (path : Path) (content : String) : Memory :=
  { m with files := m.files.insert path ⟨content, m.clock + 1⟩, clock := m.clock + 1 }

/-- Remove a file. -/
def remove (m : Memory) (path : Path) : Memory := { m with files := m.files.erase path }

/-- Make reads of a path fail from now on. -/
def failReads (m : Memory) (path : Path) : Memory := { m with failing := m.failing.insert path () }

/-- Hold back reads of a path. -/
def gate (m : Memory) (path : Path) : Memory := { m with gated := m.gated.insert path () }

/-- Let all reads pass. -/
def openGate (m : Memory) : Memory := { m with gated := OrderedMap.empty }

/-- Whether reads of a path are held back. -/
def isGated (m : Memory) (path : Path) : Bool := m.gated.contains path

/-- The time of the last write of a file. -/
def modified? (m : Memory) (path : Path) : Option Nat := (m.files.get? path).map MemoryFile.modified

/-- How often a path has been read. -/
def readCount (m : Memory) (path : Path) : Nat := (m.reads.get? path).getD 0

/-- Count a read of a path. -/
def countRead (m : Memory) (path : Path) : Memory :=
  { m with reads := m.reads.insert path (m.readCount path + 1) }

/-- What a read of a path gives. -/
def read (m : Memory) (path : Path) : Except FileError String :=
  if m.failing.contains path then .error (.unavailable path)
  else
    match m.files.get? path with
    | some file => .ok file.content
    | none => .error (.unavailable path)

/-- The files as a pass sees them. -/
def view (m : Memory) : FileView where
  isFile := m.files.contains
  modified path :=
    match m.modified? path with
    | some time => .ok time
    | none => .error (.unavailable path)
  read := m.read

end Memory

end AsmIndex

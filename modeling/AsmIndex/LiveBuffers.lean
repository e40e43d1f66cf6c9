import AsmIndex.OrderedMap
import AsmIndex.Path

/-!
Live buffers: contents of files that are open in an editor and take the place of what is stored.
-/

namespace AsmIndex

/-- The content of an open file and the time of its last change. -/
structure LiveBuffer where
  content : String
  time : Nat
deriving DecidableEq, Repr

/-- Live buffers by the normal form of their paths. -/
abbrev LiveBuffers := OrderedMap Path LiveBuffer

namespace LiveBuffers

/-- Add a buffer, in place of the one that was there. -/
def add (m : LiveBuffers) (path : Path) (buffer : LiveBuffer) : LiveBuffers :=
  m.insert path.normalized buffer

/-- Buffers added in order. -/
def ofList (buffers : List (Path × LiveBuffer)) : LiveBuffers :=
  buffers.foldl (fun m b => add m b.1 b.2) OrderedMap.empty

end LiveBuffers

end AsmIndex

import AsmIndex.Index

/-!
The difference of two indexes, file by file.
-/

namespace AsmIndex

/-- The files that differ between two indexes, each list in order. -/
structure Changes where
  added : List Path := []
  modified : List Path := []
  deleted : List Path := []
deriving DecidableEq, Repr, Inhabited

namespace Changes

/-- Whether nothing differs. -/
def isEmpty (c : Changes) : Bool := c.added.isEmpty && c.modified.isEmpty && c.deleted.isEmpty

/-- The number of files that differ. -/
def size (c : Changes) : Nat := c.added.length + c.modified.length + c.deleted.length

/-- The files that differ: those added, then those modified, then those deleted. -/
def paths (c : Changes) : List Path := c.added ++ c.modified ++ c.deleted

/-- Paths in order, each location once, in its first spelling. -/
def ordered (paths : List Path) : List Path :=
  (paths.foldl (fun (m : OrderedMap Path Unit) p => if m.contains p then m else m.insert p ())
    OrderedMap.empty).keys

/-- What leads from the index `old` to the index `new`. A file in both is modified where its
variants are not the same. -/
def between (old new : Index) : Changes :=
  { added := new.paths.filter fun p => !old.containsPath p
    modified := (new.files.entries.filter fun (p, set) =>
      (old.files.get? p).any fun before => !VariantSet.same set before).map Prod.fst
    deleted := old.paths.filter fun p => !new.containsPath p }

end Changes

end AsmIndex

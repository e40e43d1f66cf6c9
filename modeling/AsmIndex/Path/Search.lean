import AsmIndex.Reference

/-!
Where an import is looked for: in the directory of the importing file first, then in each library
directory in order. Project files thereby shadow library files. An import means the first file that
exists among these places.
-/

namespace AsmIndex

namespace Path

/-- The places where the file `relative` may be, in the order in which they are tried. -/
def candidates (directory : Path) (libraries : List Path) (relative : Path) : List Path :=
  if relative.isAbsolute then relative.normal?.toList
  else (directory :: libraries).filterMap fun root => (root.join relative).normal?

/-- Directories taken from `base`, in normal form. -/
def absolutize (base : Path) (directories : List Path) : List Path :=
  directories.filterMap fun d => if d.isAbsolute then d.normal? else (base.join d).normal?

end Path

namespace Reference

/-- The places where an import of a file in `directory` may be, in the order in which they are
tried. An empty name is nowhere. -/
def candidates (r : Reference) (directory : Path) (libraries : List Path) : List Path :=
  if r.normalized.isEmpty then [] else Path.candidates directory libraries ⟨r.normalized⟩

/-- The file that an import means, where `isFile` tells the files that exist. -/
def target? (r : Reference) (isFile : Path → Bool) (directory : Path) (libraries : List Path) :
    Option Path :=
  (r.candidates directory libraries).find? isFile

end Reference

end AsmIndex

import AsmIndex.Variant

/-!
Indexes: the variants of the files of a project, by path and incoming symbols; and the table of the
files that a pass parses once. The first variant of a file that asks for it stands for the file in
the rest of the pass.
-/

namespace AsmIndex

/-- The variants of files, by path and incoming symbols. -/
structure Index where
  files : OrderedMap Path VariantSet := OrderedMap.empty

namespace Index

/-- The index without files. -/
def empty : Index := {}

instance : Inhabited Index := ⟨empty⟩

/-- The variant of a file under given symbols. -/
def get? (ix : Index) (path : Path) (symbols : Symbols) : Option Variant :=
  (ix.files.get? path).bind (·.get? symbols)

/-- Whether a file has a variant under given symbols. -/
def contains (ix : Index) (path : Path) (symbols : Symbols) : Bool :=
  (ix.get? path symbols).isSome

/-- Whether a file has some variant. -/
def containsPath (ix : Index) (path : Path) : Bool := ix.files.contains path

/-- Put a variant under a path and symbols, in place of the one that was there. -/
def insert (ix : Index) (path : Path) (symbols : Symbols) (v : Variant) : Index :=
  ⟨ix.files.insert path (((ix.files.get? path).getD OrderedMap.empty).insert symbols v)⟩

/-- The paths of the files, in order. -/
def paths (ix : Index) : List Path := ix.files.keys

/-- The number of files. -/
def size (ix : Index) : Nat := ix.files.size

/-- The variants, in order of path and symbols. -/
def variants (ix : Index) : List Variant := ix.files.values.flatMap OrderedMap.values

/-- The number of variants. -/
def variantCount (ix : Index) : Nat := ix.variants.length

/-- The diagnostics of all variants, each with the path of its file. -/
def diagnostics (ix : Index) : List (Path × Diagnostic) :=
  ix.files.entries.flatMap fun (path, set) =>
    set.values.flatMap fun v => v.allDiagnostics.map fun d => (path, d)

/-- The variant that a reference leads to. A redirected reference leads to the variant of a file
parsed once that ends with the symbols it carries, any other to the variant under its own
symbols. -/
def follow (ix : Index) (r : Reference) : Option Variant :=
  match r.resolved with
  | none => none
  | some path =>
    match ix.files.get? path with
    | none => none
    | some set =>
      match r.override with
      | some symbols => set.values.find? fun v => v.importOnce && v.outSymbols == symbols
      | none => set.get? r.active

end Index

/-- The variant that stands for a file, and the symbols at its end. -/
structure OnceEntry where
  symbols : Symbols
  variant : Variant

/-- The files parsed once, by path. -/
abbrev OnceTable := OrderedMap Path OnceEntry

/-- Enter a file; one that is there already stays as it is. -/
def OnceTable.register (m : OnceTable) (path : Path) (entry : OnceEntry) : OnceTable :=
  if m.contains path then m else m.insert path entry

end AsmIndex

import AsmIndex.Config
import AsmIndex.Index
import AsmIndex.Json.Printer
import AsmIndex.Path

/-!
Reports on an index: its files with the symbol sets they were parsed under, the diagnostics, and the
source files that no import leads to.
-/

namespace AsmIndex

namespace Report

/-- A file, its symbol sets as texts in order, and whether it is parsed once. -/
structure FileEntry where
  path : Path
  variants : List String
  importOnce : Bool

/-- A diagnostic at a line and a column, both counted from one. -/
structure DiagnosticEntry where
  path : Path
  line : Nat
  column : Nat
  severity : Severity
  message : String

/-- Directories and files of these names, and what is below them, are no sources of a project. -/
def skippedNames : List String :=
  [".git", ".svn", ".hg", "node_modules", ".vscode", ".idea", "target", "build"]

/-- Whether a name is passed over in the search for source files. -/
def isSkipped (name : String) : Bool := skippedNames.contains name

/-- The files of an index. -/
def fileEntries (ix : Index) : List FileEntry :=
  ix.files.entries.map fun (path, set) =>
    { path
      variants := (set.keys.map Symbols.render).mergeSort (fun a b => (compare a b).isLE)
      importOnce := set.values.any Variant.importOnce }

namespace DiagnosticEntry

/-- The entry of a diagnostic of a file. -/
def of (path : Path) (d : Diagnostic) : DiagnosticEntry :=
  ⟨path, d.line + 1, d.column + 1, d.severity, d.message⟩

/-- The order of entries, by path, line and column. -/
def order (a b : DiagnosticEntry) : Ordering :=
  (compare a.path b.path).then ((compare a.line b.line).then (compare a.column b.column))

/-- Whether two entries say the same at one place. -/
def same (a b : DiagnosticEntry) : Bool := order a b == .eq && a.message == b.message

end DiagnosticEntry

/-- A list without the items that say the same as the one before them. -/
def dropRepeated : List DiagnosticEntry → List DiagnosticEntry
  | [] => []
  | [a] => [a]
  | a :: b :: rest => if a.same b then dropRepeated (a :: rest) else a :: dropRepeated (b :: rest)

/-- The diagnostics of an index in order. One that several variants have counts once. -/
def diagnosticEntries (ix : Index) : List DiagnosticEntry :=
  dropRepeated ((ix.diagnostics.map fun (p, d) => DiagnosticEntry.of p d).mergeSort
    (fun a b => (DiagnosticEntry.order a b).isLE))

/-- The source files among `found` that are not in an index, in order. A file is given by the
names on the way to it from the directory `root`. -/
def unreachedFiles (root : Path) (config : Config) (ix : Index) (found : List (List String)) :
    List Path :=
  let paths := (found.filter fun names => !names.any isSkipped).map fun names =>
    root.join (Path.ofComponents (names.map .name))
  (paths.filter fun p => config.isSource p && !ix.containsPath p.normalized).mergeSort
    (fun a b => (compare a b).isLE)

end Report

/-- A report on an index. -/
structure Report where
  entry : Path
  files : List Report.FileEntry
  variantCount : Nat
  diagnostics : List Report.DiagnosticEntry
  unreached : List Path

namespace Report

/-- The report on an index of a project. -/
def of (entry root : Path) (config : Config) (ix : Index) (found : List (List String)) :
    Report where
  entry
  files := fileEntries ix
  variantCount := ix.variantCount
  diagnostics := diagnosticEntries ix
  unreached := unreachedFiles root config ix found

/-- A line of text for a file. -/
def FileEntry.line (f : FileEntry) : String :=
  "  " ++ f.path.text ++ (if f.importOnce then " (importonce)" else "") ++ "  "
    ++ " ".intercalate f.variants

/-- A line of text for a diagnostic. -/
def DiagnosticEntry.text (d : DiagnosticEntry) : String :=
  "  " ++ d.path.text ++ ":" ++ toString d.line ++ ":" ++ toString d.column ++ ": "
    ++ d.severity.title ++ ": " ++ d.message

/-- Lines under a heading; nothing where there are none. -/
def underHeading (heading : String) (lines : List String) : List String :=
  if lines.isEmpty then [] else "" :: heading :: lines

/-- The report as text. `elapsed` is the time taken in milliseconds, `peak` the memory used. -/
def text (r : Report) (elapsed : String) (peak : Option String) : String :=
  let lines :=
    ["=== KickIndex Stats ===", "", "  entry        " ++ r.entry.text,
      "  indexed      " ++ toString r.files.length ++ " files, " ++ toString r.variantCount
        ++ " variants in " ++ elapsed ++ "ms"]
    ++ (peak.toList.map fun p => "  peak RSS     " ++ p)
    ++ ["", "Files:"] ++ r.files.map FileEntry.line
    ++ underHeading "Diagnostics:" (r.diagnostics.map DiagnosticEntry.text)
    ++ underHeading "Not reached from the entry file:" (r.unreached.map fun p => "  " ++ p.text)
    ++ [""]
  String.join (lines.map (· ++ "\n"))

/-- A file as JSON. -/
def FileEntry.json (f : FileEntry) : Json :=
  .object [("path", .string f.path.text), ("variants", .array (f.variants.map .string)),
    ("import_once", .bool f.importOnce)]

/-- A diagnostic as JSON. -/
def DiagnosticEntry.json (d : DiagnosticEntry) : Json :=
  .object [("path", .string d.path.text), ("line", .number (toString d.line)),
    ("column", .number (toString d.column)), ("severity", .string d.severity.name),
    ("message", .string d.message)]

/-- The members of the report as JSON, measured values apart. -/
def members (r : Report) : List (String × Json) :=
  [("entry_file", .string r.entry.text), ("files", .array (r.files.map FileEntry.json)),
    ("variant_count", .number (toString r.variantCount)),
    ("diagnostics", .array (r.diagnostics.map DiagnosticEntry.json)),
    ("unreached", .array (r.unreached.map fun p => .string p.text))]

/-- The report as JSON. `elapsed` is the time taken in milliseconds, `peak` the bytes used. -/
def json (r : Report) (elapsed : String) (peak : Option String) : Json :=
  .object (r.members ++
    [("duration_ms", .number elapsed), ("peak_rss_bytes", peak.elim .null .number)])

end Report

end AsmIndex

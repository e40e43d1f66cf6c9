import AsmIndex.Diagnostic
import AsmIndex.Path

/-!
Settings of an indexer.
-/

namespace AsmIndex

/-- The settings of an indexer. Directories are searched for imports after the directory of the
importing file; symbols are defined in every pass; extensions tell which files are sources. -/
structure Config where
  entryFile : String := "main.asm"
  libraryDirectories : List Path := []
  initialSymbols : List String := []
  unresolvedImportSeverity : Severity := .warning
  fileExtensions : List String := ["asm", "s", "inc"]
deriving DecidableEq, Inhabited

namespace Config

/-- Whether two settings differ in what decides how imports are found. -/
def searchChanged (c d : Config) : Bool :=
  c.entryFile != d.entryFile
    || c.libraryDirectories.map Path.components != d.libraryDirectories.map Path.components
    || c.initialSymbols != d.initialSymbols

/-- Whether two names differ at most in the case of ASCII letters. -/
def sameLetters (a b : String) : Bool := a.toList.map Char.toLower == b.toList.map Char.toLower

/-- Whether a path has the extension of a source. -/
def isSource (c : Config) (path : Path) : Bool :=
  match path.extension? with
  | some extension => c.fileExtensions.any fun allowed => sameLetters allowed extension
  | none => false

end Config

end AsmIndex

import AsmIndex.Path

/-!
Access to stored files.
-/

namespace AsmIndex

/-- Why a file cannot be had. -/
inductive FileError
  | unavailable (path : Path)
  | notFound
  | notDirectory
  | isDirectory
  | nameTooLong
  | invalidText
  | invalidName
  | system (text : String)
deriving DecidableEq, Repr

/-- The wording of an error; a file that is unavailable is named by its path. -/
def FileError.message : FileError → String
  | unavailable path => path.text
  | notFound => "No such file or directory (os error 2)"
  | notDirectory => "Not a directory (os error 20)"
  | isDirectory => "Is a directory (os error 21)"
  | nameTooLong => "File name too long (os error 36)"
  | invalidText => "stream did not contain valid UTF-8"
  | invalidName => "file name contained an unexpected NUL byte"
  | system text => text

/-- What can be asked of stored files: whether a path is one, when it was changed, and its text. -/
structure FileView where
  isFile : Path → Bool
  modified : Path → Except FileError Nat
  read : Path → Except FileError String

end AsmIndex

/-!
Diagnostics: what is wrong in a source text or with its imports, and where. Lines and columns are
natural numbers that stand for words of 32 bits, here and in tokens and references: they are exact
for texts with fewer than 2^32 lines and bytes.
-/

namespace AsmIndex

/-- How serious a diagnostic is. -/
inductive Severity
  | error
  | warning
  | information
  | hint
deriving DecidableEq, Repr, Inhabited

/-- What a diagnostic is about. -/
inductive DiagnosticCode
  | token
  | condition
  | directive
  | unresolvedImport
  | readFailure
deriving DecidableEq, Repr

/-- A diagnostic at a line and a byte column, both counted from zero. -/
structure Diagnostic where
  line : Nat
  column : Nat
  severity : Severity
  code : DiagnosticCode
  message : String
deriving DecidableEq, Repr

namespace Severity

/-- The name of a severity in settings and reports. -/
def name : Severity → String
  | error => "error"
  | warning => "warning"
  | information => "information"
  | hint => "hint"

/-- The severity with a name. -/
def ofName? : String → Option Severity
  | "error" => some error
  | "warning" => some warning
  | "information" => some information
  | "hint" => some hint
  | _ => none

/-- The title of a severity in the text report. -/
def title : Severity → String
  | error => "Error"
  | warning => "Warning"
  | information => "Information"
  | hint => "Hint"

end Severity

/-- The name of a code. -/
def DiagnosticCode.name : DiagnosticCode → String
  | token => "syntax"
  | condition => "condition"
  | directive => "directive"
  | unresolvedImport => "unresolved-import"
  | readFailure => "read-failure"

end AsmIndex

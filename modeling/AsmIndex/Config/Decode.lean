import AsmIndex.Config
import AsmIndex.Json
import AsmIndex.Number.Layout
import AsmIndex.Number.Literal
import AsmIndex.Text.Quoted

/-!
Settings from JSON: an object, in which unknown members do not count and missing ones take their
defaults, or an array of the settings in order.
-/

namespace AsmIndex.Config

/-- What is wanted where a JSON value is of the wrong kind. -/
inductive Wanted
  | settings
  | text
  | path
  | sequence
  | severity
  | nothing
deriving DecidableEq, Repr

/-- Why a JSON value is no settings. -/
inductive DecodeError
  | wrongKind (found : Json) (wanted : Wanted)
  | unknownSeverity (name : String)
  | severityMembers
  | tooManyItems (count : Nat)

/-- The wording of what is wanted. -/
def Wanted.phrase : Wanted → String
  | settings => "struct IndexerConfig"
  | text => "a string"
  | path => "path string"
  | sequence => "a sequence"
  | severity => "string or map"
  | nothing => "unit"

/-- The wording of a number. -/
def describeNumber (literal : String) : String :=
  match Number.value? literal.toList with
  | some (.integer i) => "integer `" ++ toString i ++ "`"
  | some (.floating negative v) =>
    "floating point `" ++ (if negative then "-" else "") ++ v.render .common ++ "`"
  | none => "number"

/-- The wording of what is found. -/
def describe : Json → String
  | .null => "null"
  | .bool b => "boolean `" ++ (if b then "true" else "false") ++ "`"
  | .number literal => describeNumber literal
  | .string text => "string " ++ Text.quoted text
  | .array _ => "sequence"
  | .object _ => "map"

/-- The wording of an error. -/
def DecodeError.message : DecodeError → String
  | wrongKind found wanted => "invalid type: " ++ describe found ++ ", expected " ++ wanted.phrase
  | unknownSeverity name =>
    "unknown variant `" ++ name
      ++ "`, expected one of `error`, `warning`, `information`, `hint`"
  | severityMembers => "invalid value: map, expected map with a single key"
  | tooManyItems count =>
    "invalid length " ++ toString count ++ ", expected fewer elements in array"

/-- A string. -/
def textOf : Json → Except DecodeError String
  | .string s => .ok s
  | v => .error (.wrongKind v .text)

/-- A path. -/
def pathOf : Json → Except DecodeError Path
  | .string s => .ok ⟨s⟩
  | v => .error (.wrongKind v .path)

/-- A list, item by item. -/
def listOf {α : Type} (item : Json → Except DecodeError α) :
    Json → Except DecodeError (List α)
  | .array items => items.mapM item
  | v => .error (.wrongKind v .sequence)

/-- A severity by its name. -/
def severityNamed (name : String) : Except DecodeError Severity :=
  match Severity.ofName? name with
  | some s => .ok s
  | none => .error (.unknownSeverity name)

/-- A severity: its name, or an object with its name as the one member and no value. -/
def severityOf : Json → Except DecodeError Severity
  | .string name => severityNamed name
  | .object [(name, value)] => do
    let s ← severityNamed name
    match value with
    | .null => .ok s
    | v => .error (.wrongKind v .nothing)
  | .object _ => .error .severityMembers
  | v => .error (.wrongKind v .severity)

/-- The names of the settings, in their order. -/
def memberNames : List String :=
  ["entryFile", "libraryDirectories", "initialSymbols", "unresolvedImportSeverity",
    "fileExtensions"]

/-- Settings with one of them set. -/
def setMember (c : Config) (name : String) (v : Json) : Except DecodeError Config :=
  match name with
  | "entryFile" => do return { c with entryFile := ← textOf v }
  | "libraryDirectories" => do return { c with libraryDirectories := ← listOf pathOf v }
  | "initialSymbols" => do return { c with initialSymbols := ← listOf textOf v }
  | "unresolvedImportSeverity" => do return { c with unresolvedImportSeverity := ← severityOf v }
  | "fileExtensions" => do return { c with fileExtensions := ← listOf textOf v }
  | _ => .ok c

/-- Settings with several of them set. -/
def setMembers (c : Config) : List (String × Json) → Except DecodeError Config
  | [] => .ok c
  | (name, v) :: rest => do (← c.setMember name v).setMembers rest

/-- The settings that a JSON value gives. -/
def ofJson : Json → Except DecodeError Config
  | .object members => setMembers {} members
  | .array items => do
    let c ← setMembers {} (memberNames.zip items)
    if memberNames.length < items.length then .error (.tooManyItems items.length) else .ok c
  | v => .error (.wrongKind v .settings)

end AsmIndex.Config

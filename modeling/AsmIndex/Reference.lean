import AsmIndex.Path
import AsmIndex.Symbols
import AsmIndex.Text

/-!
References: the imports that a source text makes. A reference starts out unresolved; a pass resolves
it to a path, and redirects it where the file found there is parsed once only. Lines and columns are
exact for texts with fewer than 2^32 lines and bytes, as those of diagnostics are.
-/

namespace AsmIndex

/-- An import at a line and a byte column. `active` are the symbols defined there. -/
structure Reference where
  line : Nat
  column : Nat
  raw : String
  active : Symbols
  resolved : Option Path := none
  override : Option Symbols := none
deriving DecidableEq

namespace Reference

/-- A file name without the white space around it, with slashes for backslashes. -/
def normalizeName (raw : String) : String :=
  String.ofList ((Text.trim raw.toList).map fun c => if c = '\\' then '/' else c)

/-- The file name to look for. -/
def normalized (r : Reference) : String := normalizeName r.raw

/-- The symbols under which the imported file is found in an index. -/
def effective (r : Reference) : Symbols := r.override.getD r.active

/-- The reference as the source text makes it. -/
def unresolved (r : Reference) : Reference := { r with resolved := none, override := none }

/-- The reference resolved to a path. -/
def resolveTo (r : Reference) (path : Path) : Reference := { r with resolved := some path }

/-- The reference redirected to a file that is parsed once, which ends with the symbols `s`. -/
def redirect (r : Reference) (s : Symbols) : Reference := { r with override := some s }

/-- Whether two references agree, their paths being compared by components. -/
def same (r s : Reference) : Bool :=
  r.line == s.line && r.column == s.column && r.raw == s.raw && r.active == s.active
    && r.override == s.override
    && (match r.resolved, s.resolved with
      | none, none => true
      | some p, some q => p.same q
      | _, _ => false)

end Reference

end AsmIndex

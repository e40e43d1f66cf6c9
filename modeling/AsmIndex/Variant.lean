import AsmIndex.Diagnostic
import AsmIndex.OrderedMap
import AsmIndex.Path
import AsmIndex.Reference
import AsmIndex.Source.Token
import AsmIndex.Symbols

/-!
Variants: what a source file is under one set of incoming symbols. Two variants are the same only if
one pass made them as one; the pass and a number within the pass tell them apart.
-/

namespace AsmIndex

/-- The identity of a variant: the pass that made it, and its number among those made there. -/
structure VariantId where
  pass : Nat
  serial : Nat
deriving DecidableEq, Repr, Inhabited

/-- A source file under one set of incoming symbols. -/
structure Variant where
  id : VariantId
  path : Path
  relativePath : Path
  tokens : List Source.Token
  references : List Reference
  inSymbols : Symbols
  outSymbols : Symbols
  modified : Nat
  liveContent : Option String
  importOnce : Bool
  diagnostics : List Diagnostic
  resolutionDiagnostics : List Diagnostic
deriving DecidableEq

namespace Variant

/-- The diagnostics of the text, then those of its imports. -/
def allDiagnostics (v : Variant) : List Diagnostic := v.diagnostics ++ v.resolutionDiagnostics

/-- A variant that differs in its references and in the diagnostics of its imports. -/
def withReferences (v : Variant) (id : VariantId) (references : List Reference)
    (problems : List Diagnostic) : Variant :=
  { v with id, references, resolutionDiagnostics := problems }

/-- Whether two lists of references agree. -/
def sameReferences : List Reference → List Reference → Bool
  | [], [] => true
  | r :: rs, s :: ss => r.same s && sameReferences rs ss
  | _, _ => false

end Variant

/-- The variants of one file by their incoming symbols. -/
abbrev VariantSet := OrderedMap Symbols Variant

/-- Whether two sets hold the same variants under the same symbols. -/
def VariantSet.same (a b : VariantSet) : Bool :=
  a.size == b.size && a.entries.all fun (s, v) => (b.get? s).any fun w => v.id == w.id

end AsmIndex

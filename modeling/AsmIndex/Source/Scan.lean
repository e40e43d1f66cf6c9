import AsmIndex.Condition.Parse
import AsmIndex.Reference
import AsmIndex.Source.Comment
import AsmIndex.Source.Directive
import AsmIndex.Source.Token
import AsmIndex.Text

/-!
Scanning a source text under a set of symbols. The text is taken line by line; a state carries the
symbols, the open conditional groups and whether a comment is open from one line to the next, and
each line adds its findings. Code and directives in a branch that does not hold count for nothing
but their directive tokens.
-/

namespace AsmIndex.Source

/-- An open conditional group: the line of its `#if`, whether the code around it is active,
whether its current branch is, whether one of its branches has been, and whether its `#else` has
come. -/
structure Group where
  line : Nat
  outerActive : Bool
  active : Bool
  taken : Bool
  seenElse : Bool
deriving DecidableEq, Repr

/-- What lines contribute to a scan. -/
structure Findings where
  tokens : List Token := []
  references : List Reference := []
  importOnce : Bool := false
  diagnostics : List Diagnostic := []
deriving DecidableEq

namespace Findings

instance : Inhabited Findings := ⟨{}⟩

/-- The findings of some lines and of those after them. -/
def append (f g : Findings) : Findings :=
  { tokens := f.tokens ++ g.tokens
    references := f.references ++ g.references
    importOnce := f.importOnce || g.importOnce
    diagnostics := f.diagnostics ++ g.diagnostics }

instance : Append Findings := ⟨append⟩

end Findings

/-- What a line leaves to the next one. The innermost group comes first. -/
structure State where
  symbols : Symbols
  groups : List Group := []
  inComment : Bool := false
deriving DecidableEq

namespace State

/-- Whether code counts here. -/
def active (s : State) : Bool :=
  match s.groups with
  | [] => true
  | g :: _ => g.active

/-- The truth value of a condition; one that cannot be read is false and leaves a diagnostic. -/
def test (s : State) (line column : Nat) (cs : List Char) : Bool × List Diagnostic :=
  match Condition.evaluate cs s.symbols with
  | .ok b => (b, [])
  | .error e =>
    let shown := String.ofList (Text.trim cs)
    (false, [⟨line, column, .error, .condition, s!"invalid condition '{shown}': {e.message}"⟩])

/-- The finding that a directive is misplaced or has a wrong argument. -/
def complaint (line column : Nat) (message : String) : Findings :=
  { diagnostics := [⟨line, column, .error, .directive, message⟩] }

/-- An import of the file name `piece`, which is taken from `column` of a line. -/
def reference (s : State) (line column : Nat) (piece : Piece) : Findings :=
  { references :=
      [{ line, column := column + piece.offset, raw := String.ofList piece.text
         active := s.symbols }] }

/-- `#if` opens a group. -/
def openGroup (s : State) (line : Nat) (d : Directive) : State × Findings :=
  let (holds, diagnostics) :=
    if s.active then s.test line d.argumentColumn d.argument else (false, [])
  let group := ⟨line, s.active, holds, holds, false⟩
  ({ s with groups := group :: s.groups }, { diagnostics })

/-- `#elif` starts a branch, which is active if none was before and its condition holds. -/
def nextBranch (s : State) (line : Nat) (d : Directive) : State × Findings :=
  match s.groups with
  | [] => (s, complaint line d.column "#elif without matching #if")
  | g :: outer =>
    let misplaced := if g.seenElse then complaint line d.column "#elif after #else" else {}
    let (holds, diagnostics) :=
      if g.outerActive && !g.taken then s.test line d.argumentColumn d.argument else (false, [])
    let group := { g with active := holds, taken := g.taken || holds }
    ({ s with groups := group :: outer }, misplaced ++ { diagnostics })

/-- `#else` starts a branch, which is active if none was before. -/
def lastBranch (s : State) (line : Nat) (d : Directive) : State × Findings :=
  match s.groups with
  | [] => (s, complaint line d.column "#else without matching #if")
  | g :: outer =>
    let group := { g with active := g.outerActive && !g.taken, taken := true, seenElse := true }
    ({ s with groups := group :: outer },
      if g.seenElse then complaint line d.column "duplicate #else" else {})

/-- `#endif` closes the innermost group. -/
def closeGroup (s : State) (line : Nat) (d : Directive) : State × Findings :=
  match s.groups with
  | [] => (s, complaint line d.column "#endif without matching #if")
  | _ :: outer => ({ s with groups := outer }, {})

/-- `#define` and `#undef` change the symbols. -/
def change (s : State) (line : Nat) (d : Directive) (f : Symbols → String → Symbols) :
    State × Findings :=
  match symbolArgument? d.argument with
  | some name => ({ s with symbols := f s.symbols name }, {})
  | none => (s, complaint line d.column ("#" ++ d.keyword.name ++ " expects a symbol name"))

/-- `#import` imports a file. -/
def importFile (s : State) (line : Nat) (d : Directive) : Findings :=
  match fileArgument? d.argument with
  | some piece => s.reference line d.argumentColumn piece
  | none => complaint line d.column "#import expects a quoted file name"

/-- `#importif` imports a file where a condition holds. -/
def importIf (s : State) (line : Nat) (d : Directive) : Findings :=
  match guardedArgument? d.argument with
  | some (guard, piece) =>
    let (holds, diagnostics) := s.test line (d.argumentColumn + guard.offset) guard.text
    { diagnostics } ++ if holds then s.reference line d.argumentColumn piece else {}
  | none => complaint line d.column "#importif expects a condition and a quoted file name"

/-- What a directive does, its own token apart. -/
def directive (s : State) (line : Nat) (d : Directive) : State × Findings :=
  match d.keyword with
  | .ifHolds => s.openGroup line d
  | .elseIf => s.nextBranch line d
  | .otherwise => s.lastBranch line d
  | .endIf => s.closeGroup line d
  | keyword =>
    if !s.active then (s, {})
    else
      match keyword with
      | .define => s.change line d Symbols.insert
      | .undef => s.change line d Symbols.erase
      | .importFile => (s, s.importFile line d)
      | .importIf => (s, s.importIf line d)
      | .importOnce => (s, { importOnce := true })
      | _ => (s, {})

/-- What a line of code contributes. -/
def codeLine (s : State) (line : Nat) (cs : List Char) : Findings :=
  if !s.active then {}
  else
    let imports : Findings :=
      match sourceImport? cs with
      | some piece => s.reference line 0 piece
      | none => { importOnce := isOnceMark cs }
    let (tokens, diagnostics) := code line cs
    imports ++ { tokens, diagnostics }

/-- What a line without comments does. -/
def maskedLine (s : State) (line : Nat) (cs : List Char) : State × Findings :=
  match Directive.ofLine? cs with
  | some d =>
    let token : Token := ⟨.directive, "#" ++ d.keyword.name, line, d.column⟩
    let (s, findings) := s.directive line d
    (s, { tokens := [token] } ++ findings)
  | none => (s, s.codeLine line cs)

/-- What a line does. -/
def line (s : State) (line : Nat) (cs : List Char) : State × Findings :=
  let (masked, inComment) := mask s.inComment cs
  { s with inComment }.maskedLine line masked

/-- What lines do, the first of which has the number `n`. -/
def lines (s : State) (n : Nat) : List (List Char) → State × Findings
  | [] => (s, {})
  | cs :: rest =>
    let (s, findings) := s.line n cs
    let (s, more) := s.lines (n + 1) rest
    (s, findings ++ more)

/-- The groups that are open at the end of a text are complaints, the outermost first. -/
def finish (s : State) : Findings :=
  { diagnostics := s.groups.reverse.map fun g =>
      ⟨g.line, 0, .error, .directive, "#if without matching #endif"⟩ }

end State

/-- The result of scanning a text: its findings and the symbols at its end. -/
structure Scan where
  findings : Findings
  outSymbols : Symbols
deriving DecidableEq

/-- Scan a text where the symbols of `incoming` are defined. -/
def scan (text : String) (incoming : Symbols) : Scan :=
  let (s, findings) := State.lines { symbols := incoming } 0 (Text.lines text.toList)
  ⟨findings ++ s.finish, s.symbols⟩

end AsmIndex.Source

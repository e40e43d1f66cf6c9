import AsmIndex.Diagnostic
import AsmIndex.Files
import AsmIndex.Index
import AsmIndex.LiveBuffers
import AsmIndex.Path.Relative
import AsmIndex.Path.Search
import AsmIndex.Source.Scan

/-!
The walk of a pass through the import graph, depth first from the entry file. A walk goes in small
steps, each of which asks the stored files at most one question, so that anything may happen between
two steps. A file is registered under its incoming symbols before its imports are followed, which is
what ends the walk on cyclic imports.
-/

namespace AsmIndex

/-- What stays the same during a pass: its number, the directory of the project, the library
directories in normal form, the severity of imports that are not found, the live buffers, and the
index that the pass starts from. -/
structure Plan where
  pass : Nat
  directory : Path
  libraries : List Path
  severity : Severity
  live : LiveBuffers
  previous : Index

namespace Walk

/-- A registered file whose imports are being followed: those still to follow, those followed, and
the problems met. -/
structure Frame where
  path : Path
  symbols : Symbols
  variant : Variant
  pending : List Reference
  followed : List Reference
  problems : List Diagnostic

/-- How a walk ends. -/
inductive Ending
  | complete
  | unreadable (e : FileError)
  | cancelled
deriving DecidableEq, Repr

/-- What a walk does next. -/
inductive Stage
  /-- Come to a file. -/
  | enter (path : Path) (symbols : Symbols)
  /-- Ask when the file was changed. -/
  | stamp (path : Path) (symbols : Symbols)
  /-- Ask for the text of the file. -/
  | read (path : Path) (symbols : Symbols) (modified : Nat)
  /-- Go on to the next import of a file. -/
  | follow (frame : Frame)
  /-- Look for an import of a file among the candidates that are left. -/
  | probe (frame : Frame) (reference : Reference) (candidates : List Path)
  /-- Go back to the importing file. -/
  | leave (failure : Option FileError)
  /-- Nothing. -/
  | ended (ending : Ending)

end Walk

/-- The state of a walk. The stack holds the importing files with the import that each is at. -/
structure Walk where
  index : Index := {}
  once : OnceTable := OrderedMap.empty
  reused : Nat := 0
  tokenized : Nat := 0
  made : Nat := 0
  stack : List (Walk.Frame × Reference) := []
  stage : Walk.Stage

namespace Walk

/-- The walk that starts at an entry file. -/
def start (entry : Path) (symbols : Symbols) : Walk := { stage := .enter entry symbols }

/-- How the walk ended, if it did. -/
def ending? (w : Walk) : Option Ending :=
  match w.stage with
  | .ended e => some e
  | _ => none

/-- Register a variant and turn to its imports. -/
def register (w : Walk) (path : Path) (symbols : Symbols) (v : Variant) : Walk :=
  { w with
    index := w.index.insert path symbols v
    once := if v.importOnce then OnceTable.register w.once path ⟨v.outSymbols, v⟩ else w.once
    stage := .follow ⟨path, symbols, v, v.references, [], []⟩ }

/-- Take over a variant of the previous index. -/
def reuse (w : Walk) (path : Path) (symbols : Symbols) (v : Variant) : Walk :=
  { w with reused := w.reused + 1 }.register path symbols v

/-- The variant that a text makes. -/
def variantOf (plan : Plan) (serial : Nat) (path : Path) (symbols : Symbols) (text : String)
    (modified : Nat) (live : Option String) : Variant :=
  let scan := Source.scan text symbols
  { id := ⟨plan.pass, serial⟩
    path
    relativePath := path.relativeTo plan.directory
    tokens := scan.findings.tokens
    references := scan.findings.references
    inSymbols := symbols
    outSymbols := scan.outSymbols
    modified
    liveContent := live
    importOnce := scan.findings.importOnce
    diagnostics := scan.findings.diagnostics
    resolutionDiagnostics := [] }

/-- Make a variant of a text. -/
def tokenize (plan : Plan) (w : Walk) (path : Path) (symbols : Symbols) (text : String)
    (modified : Nat) (live : Option String) : Walk :=
  { w with tokenized := w.tokenized + 1, made := w.made + 1 }.register path symbols
    (variantOf plan w.made path symbols text modified live)

/-- Take a file from its live buffer. The previous variant is taken over if it has the content and
the time of the buffer. -/
def enterLive (plan : Plan) (w : Walk) (path : Path) (symbols : Symbols) (buffer : LiveBuffer) :
    Walk :=
  match plan.previous.get? path symbols with
  | some v =>
    if v.liveContent == some buffer.content && v.modified == buffer.time then w.reuse path symbols v
    else w.tokenize plan path symbols buffer.content buffer.time (some buffer.content)
  | none => w.tokenize plan path symbols buffer.content buffer.time (some buffer.content)

/-- Come to a file: it is known, or open in an editor, or stored. -/
def enter (plan : Plan) (w : Walk) (path : Path) (symbols : Symbols) : Walk :=
  if w.index.contains path symbols then { w with stage := .leave none }
  else
    match plan.live.get? path with
    | some buffer => w.enterLive plan path symbols buffer
    | none => { w with stage := .stamp path symbols }

/-- Learn when a file was changed. The previous variant is taken over if it came from the stored
file as it was then. -/
def stamp (plan : Plan) (w : Walk) (path : Path) (symbols : Symbols)
    (answer : Except FileError Nat) : Walk :=
  match answer with
  | .error e => { w with stage := .leave (some e) }
  | .ok modified =>
    match plan.previous.get? path symbols with
    | some v =>
      if v.liveContent.isNone && v.modified == modified then w.reuse path symbols v
      else { w with stage := .read path symbols modified }
    | none => { w with stage := .read path symbols modified }

/-- Learn the text of a file. -/
def read (plan : Plan) (w : Walk) (path : Path) (symbols : Symbols) (modified : Nat)
    (answer : Except FileError String) : Walk :=
  match answer with
  | .error e => { w with stage := .leave (some e) }
  | .ok text => w.tokenize plan path symbols text modified none

/-- All imports of a file have been followed: its variant is replaced where they turned out
otherwise than it says. -/
def finish (plan : Plan) (w : Walk) (frame : Frame) : Walk :=
  let v := frame.variant
  if Variant.sameReferences frame.followed v.references
      && frame.problems == v.resolutionDiagnostics then
    { w with stage := .leave none }
  else
    let updated := v.withReferences ⟨plan.pass, w.made⟩ frame.followed frame.problems
    { w with
      index := w.index.insert frame.path frame.symbols updated
      made := w.made + 1
      stage := .leave none }

/-- The frame after an import has been followed. -/
def Frame.add (frame : Frame) (r : Reference) (problem : Option Diagnostic) : Frame :=
  { frame with
    followed := frame.followed ++ [r]
    problems := frame.problems ++ problem.toList }

/-- The import of a file that may be parsed once. -/
def redirected (w : Walk) (r : Reference) (target : Path) : Reference :=
  match w.once.get? target with
  | some entry => r.redirect entry.symbols
  | none => r

/-- An import is found nowhere. -/
def missing (plan : Plan) (w : Walk) (frame : Frame) (r : Reference) : Walk :=
  let problem : Diagnostic :=
    ⟨r.line, r.column, plan.severity, .unresolvedImport,
      "cannot find imported file '" ++ r.raw ++ "'"⟩
  { w with stage := .follow (frame.add r (some problem)) }

/-- An import is found at `target`: the file there is parsed once or known, or it is walked now. -/
def arrive (w : Walk) (frame : Frame) (r : Reference) (target : Path) : Walk :=
  let r := r.resolveTo target
  if w.once.contains target || w.index.contains target r.active then
    { w with stage := .follow (frame.add (w.redirected r target) none) }
  else { w with stack := (frame, r) :: w.stack, stage := .enter target r.active }

/-- The file that an import leads to has been walked, or could not be had. -/
def leave (w : Walk) (failure : Option FileError) : Walk :=
  match w.stack with
  | [] =>
    match failure with
    | none => { w with stage := .ended .complete }
    | some e => { w with stage := .ended (.unreadable e) }
  | (frame, r) :: stack =>
    let target := r.resolved.getD ⟨""⟩
    let problem : Option Diagnostic := failure.map fun e =>
      ⟨r.line, r.column, .error, .readFailure,
        "cannot read '" ++ target.text ++ "': " ++ e.message⟩
    { w with stack, stage := .follow (frame.add (w.redirected r target) problem) }

/-- One step of a walk. A cancelled pass gives up on coming to a file and before each import. -/
def step (plan : Plan) (view : FileView) (cancelled : Bool) (w : Walk) : Walk :=
  match w.stage with
  | .enter path symbols =>
    if cancelled then { w with stage := .ended .cancelled } else w.enter plan path symbols
  | .stamp path symbols => w.stamp plan path symbols (view.modified path)
  | .read path symbols modified => w.read plan path symbols modified (view.read path)
  | .follow frame =>
    match frame.pending with
    | [] => w.finish plan frame
    | r :: pending =>
      if cancelled then { w with stage := .ended .cancelled }
      else
        let r := r.unresolved
        { w with
          stage := .probe { frame with pending } r
            (r.candidates frame.path.directory plan.libraries) }
  | .probe frame r [] => w.missing plan frame r
  | .probe frame r (path :: rest) =>
    if view.isFile path then w.arrive frame r path
    else { w with stage := .probe frame r rest }
  | .leave failure => w.leave failure
  | .ended _ => w

/-- Steps of a walk that nobody cancels, until it ends or `fuel` steps are done. -/
def run (plan : Plan) (view : FileView) (w : Walk) : Nat → Walk
  | 0 => w
  | fuel + 1 =>
    match w.stage with
    | .ended _ => w
    | _ => (w.step plan view false).run plan view fuel

end Walk

end AsmIndex

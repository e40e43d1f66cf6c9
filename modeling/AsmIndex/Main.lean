import AsmIndex.CommandLine
import AsmIndex.Report.Measure

/-!
The program: the command line over the files of the operating system.
-/

namespace AsmIndex.CommandLine

/-- Whether a system code stands for the error `n`; some functions give it with the sign changed. -/
def isCode (n code : UInt32) : Bool := code == n || code == 0 - n

/-- Why the operating system does not answer a question about a file. -/
def fileError : IO.Error → FileError
  | .noFileOrDirectory .. => .notFound
  | .inappropriateType _ code _ => if isCode 20 code then .notDirectory else .isDirectory
  | .invalidArgument _ code text =>
    if isCode 36 code then .nameTooLong else if isCode 22 code then .invalidName else .system text
  | e => .system (toString e)

/-- The answer to a question about a file. -/
def answerOf {α : Type} (question : IO α) : IO (Except FileError α) := do
  try return .ok (← question)
  catch e => return .error (fileError e)

/-- What the system keeps about a path. -/
def metadataOf (p : Path) : IO (Except FileError IO.FS.Metadata) :=
  answerOf (IO.FS.DirEntry.mk p.text "").root.metadata

/-- Whether a path leads to something of a type. -/
def isOfType (type : IO.FS.FileType) (p : Path) : IO Bool := do
  match ← metadataOf p with
  | .ok data => return data.type == type
  | .error _ => return false

/-- When a file was changed, in nanoseconds. -/
def modifiedTime (data : IO.FS.Metadata) : Nat :=
  data.modified.sec.toNat * 1000000000 + data.modified.nsec.toNat

/-- The text of a file. -/
def textOf (p : Path) : IO (Except FileError String) := do
  match ← answerOf (IO.FS.readBinFile p.text) with
  | .error e => return .error e
  | .ok bytes =>
    match String.fromUTF8? bytes with
    | some text => return .ok text
    | none => return .error .invalidText

/-- The answer to the one question that the next step of a walk asks. -/
def ask (w : Walk) : IO FileView := do
  let silent : FileView :=
    ⟨fun _ => false, fun _ => .error .notFound, fun _ => .error .notFound⟩
  match w.stage with
  | .stamp path _ =>
    let answer ← metadataOf path
    return { silent with modified := fun _ => answer.map modifiedTime }
  | .read path _ _ =>
    let answer ← textOf path
    return { silent with read := fun _ => answer }
  | .probe _ _ (path :: _) =>
    let answer ← isOfType .file path
    return { silent with isFile := fun _ => answer }
  | _ => return silent

/-- The walk from where it is to its end. -/
partial def walkToEnd (plan : Plan) (w : Walk) : IO Walk := do
  match w.ending? with
  | some _ => return w
  | none => walkToEnd plan (w.step plan (← ask w) false)

/-- The names of the files below a directory, from there. What cannot be read does not count. -/
partial def filesBelow (directory : Path) (names : List String) : IO (List (List String)) := do
  match ← answerOf (IO.FS.DirEntry.mk directory.text "").root.readDir with
  | .error _ => return []
  | .ok entries =>
    let found ← entries.toList.mapM fun entry => do
      let below := names ++ [entry.fileName]
      match ← answerOf entry.path.symlinkMetadata with
      | .error _ => return []
      | .ok data =>
        match data.type with
        | .file => return [below]
        | .dir =>
          if Report.isSkipped entry.fileName then return []
          else filesBelow (directory.join ⟨entry.fileName⟩) below
        | _ => return []
    return found.flatten

/-- The options that arguments give. -/
def readOptions (args : List String) : IO (Except Failure Options) := do
  let isDirectory ← match Draft.read {} args with
    | .ok { path := some path, .. } => isOfType .dir path
    | _ => pure false
  return Options.parse (fun _ => isDirectory) args

/-- The settings that options name. -/
def readConfig (path : Option Path) : IO (Except Failure Config) := do
  match path with
  | none => return .ok {}
  | some path => return configFrom path (← textOf path)

/-- The report that arguments ask for. -/
def makeStats (args : List String) : IO (Except Failure String) := ExceptT.run do
  let o ← ExceptT.mk (readOptions args)
  let config ← ExceptT.mk (readConfig o.config)
  let real ← ExceptT.mk (answerOf (IO.FS.realPath o.path.text) >>= fun answer =>
    return answer.mapError fun _ => Failure.unresolvedRoot o.path)
  let root := (Path.mk real.toString).normalized
  let project := Project.of root config.entryFile
  let start ← IO.monoNanosNow
  let walk ← walkToEnd (firstPlan config project o.request) (firstWalk config project o.request)
  let index ← ExceptT.mk (pure (indexOf project.entry walk))
  let elapsed := (← IO.monoNanosNow) - start
  let report := Report.of project.entry root config index (← filesBelow root [])
  let peak := (← textOf ⟨"/proc/self/status"⟩).toOption.bind Report.peakOf?
  if o.json then
    return render o report (Report.exactMillisecondText elapsed) (peak.map toString)
  else return render o report (Report.millisecondText elapsed) (peak.map Report.byteText)

end AsmIndex.CommandLine

/-- Answer a command line. -/
def main (args : List String) : IO UInt32 := do
  let response ← AsmIndex.CommandLine.respondWith AsmIndex.CommandLine.makeStats args
  IO.print response.output
  IO.eprint response.error
  return response.exit.toUInt32

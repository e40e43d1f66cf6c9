import AsmIndex.Config.Decode
import AsmIndex.Files
import AsmIndex.Indexer
import AsmIndex.Json.Reader
import AsmIndex.Report

/-!
The command line: its commands, the options of the report, and the texts it prints.
-/

namespace AsmIndex.CommandLine

/-- The version of the program. -/
def version : String := "0.1.0"

/-- The help text. -/
def usage : String :=
  "kickindex " ++ version ++ ", a multi-variant KickAssembler source indexer.\n\n"
    ++ "Usage: kickindex stats <project-dir> [OPTIONS]\n\n"
    ++ "Stats options:\n\n"
    ++ "-D SYM, -DSYM                Define a preprocessor symbol (repeatable)\n"
    ++ "--lib DIR                    Add a library directory (repeatable)\n"
    ++ "--config FILE                Read indexer settings from a JSON file\n"
    ++ "--json                       Print the report as JSON\n\n"
    ++ "Available options:\n\n"
    ++ "--version                    Print the version\n"
    ++ "--help                       Print this help message\n\n"

/-- The options of the report. -/
structure Options where
  path : Path
  symbols : List String
  libraries : List Path
  config : Option Path
  json : Bool

/-- Why a command fails. -/
inductive Failure
  | missingSymbol (flag : String)
  | missingLibrary
  | missingConfig
  | unknownFlag (flag : String)
  | severalPaths
  | missingPath
  | notDirectory (path : Path)
  | unknownCommand (name : String)
  | unreadableConfig (path : Path)
  | malformedConfig (path : Path)
  | wrongConfig (e : Config.DecodeError)
  | unresolvedRoot (path : Path)
  | cancelled
  | pass (e : PassError)

/-- The wording of a failure. -/
def Failure.message : Failure → String
  | missingSymbol flag => flag ++ " requires a symbol name"
  | missingLibrary => "--lib requires a directory"
  | missingConfig => "--config requires a file"
  | unknownFlag flag => "Unknown flag: '" ++ flag ++ "'"
  | severalPaths => "Multiple paths provided; expected exactly one"
  | missingPath => "Missing required <project-dir> argument"
  | notDirectory path => "Not a directory: " ++ path.text
  | unknownCommand name => "Unknown argument: '" ++ name ++ "'"
  | unreadableConfig path => "reading config " ++ path.text
  | malformedConfig path => "parsing config " ++ path.text
  | wrongConfig e => e.message
  | unresolvedRoot path => "resolving " ++ path.text
  | cancelled => "pass was cancelled"
  | pass e => e.message

/-- The arguments read so far. -/
structure Draft where
  path : Option Path := none
  symbols : List String := []
  libraries : List Path := []
  config : Option Path := none
  json : Bool := false

/-- Read the arguments of the report from the left. -/
def Draft.read (d : Draft) : List String → Except Failure Draft
  | [] => .ok d
  | arg :: rest =>
    if arg == "--json" then { d with json := true }.read rest
    else if arg == "-D" || arg == "--define" then
      match rest with
      | [] => .error (.missingSymbol arg)
      | symbol :: rest => { d with symbols := d.symbols ++ [symbol] }.read rest
    else if arg == "--lib" then
      match rest with
      | [] => .error .missingLibrary
      | directory :: rest => { d with libraries := d.libraries ++ [Path.mk directory] }.read rest
    else if arg == "--config" then
      match rest with
      | [] => .error .missingConfig
      | file :: rest => { d with config := some (Path.mk file) }.read rest
    else
      match arg.toList with
      | '-' :: 'D' :: symbol =>
        { d with symbols := d.symbols ++ [String.ofList symbol] }.read rest
      | '-' :: _ => .error (.unknownFlag arg)
      | _ =>
        if d.path.isSome then .error .severalPaths
        else { d with path := some (Path.mk arg) }.read rest

/-- The options that arguments give, where `isDirectory` tells the directories. -/
def Options.parse (isDirectory : Path → Bool) (args : List String) : Except Failure Options := do
  let d ← Draft.read {} args
  match d.path with
  | none => .error .missingPath
  | some path =>
    if isDirectory path then
      .ok
        { path
          symbols := d.symbols
          libraries := d.libraries
          config := d.config
          json := d.json }
    else .error (.notDirectory path)

/-- The settings in a file, given what reading the file gave. -/
def configFrom (path : Path) (content : Except FileError String) : Except Failure Config :=
  match content with
  | .error _ => .error (.unreadableConfig path)
  | .ok text =>
    match Json.parse? text with
    | none => .error (.malformedConfig path)
    | some value => (Config.ofJson value).mapError .wrongConfig

/-- The request that options make. -/
def Options.request (o : Options) : Request :=
  { symbols := Symbols.ofList o.symbols, libraries := o.libraries }

/-- What the first pass over a project works with. -/
def firstPlan (config : Config) (project : Project) (request : Request) : Plan :=
  ({ config } : Indexer).planOf 1 project request

/-- Where the first pass over a project starts. -/
def firstWalk (config : Config) (project : Project) (request : Request) : Walk :=
  Walk.start project.entry (({ config } : Indexer).symbolsOf request)

/-- The index that a walk leads to. -/
def indexOf (entry : Path) (walk : Walk) : Except Failure Index :=
  match walk.ending? with
  | some .complete => .ok walk.index
  | some (.unreadable e) => .error (.pass (.unreadableEntry entry e))
  | some .cancelled | none => .error .cancelled

/-- The text of a report in the form that was asked for, with measured values as given. -/
def render (o : Options) (r : Report) (elapsed : String) (peak : Option String) : String :=
  if o.json then (r.json elapsed peak).pretty ++ "\n" else r.text elapsed peak

/-- What the first word of a command line asks for. -/
inductive Command
  | help
  | version
  | stats (args : List String)
  | unknown (name : String)

/-- The command of a command line. -/
def Command.of : List String → Command
  | [] => help
  | name :: args =>
    if name == "stats" then stats args
    else if name == "--version" then version
    else if name == "--help" then help
    else unknown name

/-- What a command leaves: an exit code and two texts. -/
structure Response where
  exit : Nat := 0
  output : String := ""
  error : String := ""

/-- The response to a failure. -/
def Response.ofFailure (f : Failure) : Response :=
  { exit := 1, error := "Error: " ++ f.message ++ "\n" }

/-- The response to a command line, where `stats` makes the report that arguments ask for. -/
def respondWith {m : Type → Type} [Monad m] (stats : List String → m (Except Failure String))
    (args : List String) : m Response :=
  match Command.of args with
  | .help => pure { output := usage }
  | .version => pure { output := "kickindex " ++ version ++ "\n" }
  | .unknown name => pure (.ofFailure (.unknownCommand name))
  | .stats args => do
    match ← stats args with
    | .ok text => return { output := text }
    | .error f => return .ofFailure f

end AsmIndex.CommandLine

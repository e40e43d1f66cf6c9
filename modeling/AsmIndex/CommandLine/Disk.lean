import AsmIndex.CommandLine
import AsmIndex.Files.Disk
import AsmIndex.Indexer.Settle

/-!
The command line over a tree of files that is held as a value.
-/

namespace AsmIndex.CommandLine

/-- The settings that options name. -/
def loadConfig (d : Disk) (path : Option Path) : Except Failure Config :=
  match path with
  | none => .ok {}
  | some path => configFrom path (d.read path)

/-- The first walk over a project in a tree, from its start to its end. In normal form a file has at
most one absolute and one relative path. -/
def walkDisk (d : Disk) (config : Config) (project : Project) (request : Request) : Walk :=
  let plan := firstPlan config project request
  let walk := firstWalk config project request
  walk.run plan d.view (walk.budget plan (2 * d.nodes.size) d.texts)

/-- The report on a project in a tree. -/
def reportOn (d : Disk) (o : Options) : Except Failure (Config × Report) := do
  let config ← loadConfig d o.config
  let names ← (d.locate o.path).mapError fun _ => Failure.unresolvedRoot o.path
  let root := (Disk.pathOf names).normalized
  let project := Project.of root config.entryFile
  let index ← indexOf project.entry (walkDisk d config project o.request)
  return (config, Report.of project.entry root config index (d.filesBelow names))

/-- The report that arguments ask for. -/
def stats (d : Disk) (args : List String) (elapsed : String) (peak : Option String) :
    Except Failure String := do
  let o ← Options.parse d.isDirectory args
  let (_, report) ← reportOn d o
  return render o report elapsed peak

/-- The response to a command line. -/
def respond (d : Disk) (args : List String) (elapsed : String) (peak : Option String) : Response :=
  respondWith (m := Id) (fun args => stats d args elapsed peak) args

end AsmIndex.CommandLine

import AsmIndex.Config
import AsmIndex.Files.Memory
import AsmIndex.Indexer.Notice
import AsmIndex.Walk

/-!
The indexer: it keeps the published index of a project up to date. Passes run one at a time, in
the order in which they were asked for; a new one cancels the one before it. A call does its first
part at once and then waits for its turn. Everything after that happens in small steps, and
between any two of them further calls may come and files may change.
-/

namespace AsmIndex

/-- A project: its directory and its entry file. -/
structure Project where
  directory : Path
  entry : Path
deriving DecidableEq, Repr

/-- The project of a directory and the name of its entry file. -/
def Project.of (directory : Path) (entryFile : String) : Project :=
  ⟨directory, (directory.join ⟨entryFile⟩).normalized⟩

/-- What a pass is asked to use: live buffers, symbols, and library directories. -/
structure Request where
  live : LiveBuffers := OrderedMap.empty
  symbols : Symbols := Symbols.empty
  libraries : List Path := []

/-- Why a pass fails. -/
inductive PassError
  | noProject
  | unreadableEntry (entry : Path) (cause : FileError)
deriving DecidableEq, Repr

/-- The wording of an error. -/
def PassError.message : PassError → String
  | noProject => "no project established"
  | unreadableEntry entry cause => "cannot read entry file " ++ entry.text ++ ": " ++ cause.message

/-- The result of a completed pass. -/
structure Summary where
  pass : Nat
  files : Nat
  variants : Nat
  reused : Nat
  tokenized : Nat
  changes : Changes
  published : Bool

/-- What a call comes to. -/
inductive Outcome
  | completed (summary : Summary)
  | cancelled
  | failed (e : PassError)
  /-- New settings that ask for no pass. -/
  | noPass
  | stopped

/-- A call: establish a project and parse it, parse again, change the settings, or stop. -/
inductive Call
  | initial (directory : Path) (request : Request)
  | parse (request : Request)
  | setConfig (config : Config)
  | stop

/-- A call that waits for its turn. -/
inductive Job
  | pass (call : Nat) (id : Nat) (project : Project) (request : Request)
  | stop (call : Nat)

/-- How far a running pass is: it walks, or it has published and waits for attached tasks. -/
inductive Phase
  | walking (walk : Walk)
  | joining (summary : Summary) (tasks : List Task)

/-- The pass whose turn it is. -/
structure Running where
  call : Nat
  project : Project
  plan : Plan
  phase : Phase

/-- The state of an indexer, with the files it reads and a log of what it did. `active` is the pass
asked for last, as long as it has not ended or been stopped; `cancelled` are the passes that were
cancelled. -/
structure Indexer where
  config : Config := {}
  files : Memory := {}
  project : Option Project := none
  lastRequest : Option Request := none
  snapshot : Snapshot := {}
  state : PassState := .idle
  active : Option Nat := none
  passCount : Nat := 0
  cancelled : List Nat := []
  subscribers : List Subscriber := []
  running : Option Running := none
  queue : List Job := []
  callCount : Nat := 0
  outcomes : List (Nat × Outcome) := []
  notices : List (String × Notice) := []
  works : List (String × Bool) := []

namespace Indexer

/-- Whether a pass is cancelled. -/
def isCancelled (ix : Indexer) (pass : Nat) : Bool := ix.cancelled.contains pass

/-- Record what a call came to. -/
def report (ix : Indexer) (call : Nat) (outcome : Outcome) : Indexer :=
  { ix with outcomes := ix.outcomes ++ [(call, outcome)] }

/-- What a call came to, if it is over. -/
def outcome? (ix : Indexer) (call : Nat) : Option Outcome := ix.outcomes.lookup call

/-- What a pass works with: the settings are those of the moment its turn comes. -/
def planOf (ix : Indexer) (id : Nat) (project : Project) (request : Request) : Plan where
  pass := id
  directory := project.directory
  libraries := Path.absolutize project.directory (request.libraries ++ ix.config.libraryDirectories)
  severity := ix.config.unresolvedImportSeverity
  live := request.live
  previous := ix.snapshot.index

/-- The symbols that a pass starts from. -/
def symbolsOf (ix : Indexer) (request : Request) : Symbols :=
  request.symbols.union (Symbols.ofList ix.config.initialSymbols)

/-- A waiting call gets its turn. -/
def grant (ix : Indexer) : Job → Indexer
  | .stop call => ix.report call .stopped
  | .pass call id project request =>
    if ix.isCancelled id then ix.report call .cancelled
    else
      { ix with
        state := .running
        running := some
          { call
            project
            plan := ix.planOf id project request
            phase := .walking (Walk.start project.entry (ix.symbolsOf request)) } }

/-- A call waits for its turn, which comes at once where nothing runs and nobody waits. -/
def enqueue (ix : Indexer) (job : Job) : Indexer :=
  if ix.running.isNone && ix.queue.isEmpty then ix.grant job
  else { ix with queue := ix.queue ++ [job] }

/-- Cancel the pass asked for last. -/
def cancelActive (ix : Indexer) : Indexer :=
  { ix with active := none, cancelled := ix.active.toList ++ ix.cancelled }

/-- Ask for a pass. -/
def requestPass (ix : Indexer) (call : Nat) (request : Request) : Indexer :=
  match ix.project with
  | none => { ix with state := .failed }.report call (.failed .noProject)
  | some project =>
    let id := ix.passCount + 1
    { ix.cancelActive with
      lastRequest := some request
      passCount := id
      active := some id }.enqueue (.pass call id project request)

/-- Change the settings. Where imports may be found elsewhere now, the last request is made
again. -/
def changeConfig (ix : Indexer) (call : Nat) (config : Config) : Indexer :=
  if !ix.config.searchChanged config then { ix with config }.report call .noPass
  else
    let project := ix.project.map fun p => Project.of p.directory config.entryFile
    let ix := { ix with config, project }
    match ix.lastRequest with
    | none => ix.report call .noPass
    | some request => ix.requestPass call request

/-- The first part of a call, up to where it waits. Calls are numbered in order. -/
def call (ix : Indexer) (c : Call) : Indexer :=
  let id := ix.callCount
  let ix := { ix with callCount := id + 1 }
  match c with
  | .initial directory request =>
    let project := Project.of directory.normalized ix.config.entryFile
    { ix with project := some project }.requestPass id request
  | .parse request => ix.requestPass id request
  | .setConfig config => ix.changeConfig id config
  | .stop => ix.cancelActive.enqueue (.stop id)

/-- The state that a pass leaves behind. -/
def stateAfter : Outcome → PassState
  | .completed _ => .completed
  | .cancelled => .cancelled
  | _ => .failed

/-- A running pass ends. -/
def endPass (ix : Indexer) (r : Running) (outcome : Outcome) : Indexer :=
  { ix with
    state := stateAfter outcome
    active := if ix.active == some r.plan.pass then none else ix.active
    running := none }.report r.call outcome

/-- Publish an index, and then tell the subscribers. -/
def publish (ix : Indexer) (r : Running) (index : Index) (summary : Summary) : Indexer :=
  let snapshot : Snapshot := ⟨r.plan.pass, index⟩
  let ix := { ix with snapshot }
  let told := tell
    { changes := summary.changes
      snapshot
      cancelled := ix.isCancelled r.plan.pass
      published := ix.snapshot.pass == snapshot.pass
      state := ix.state } ix.subscribers
  { ix with
    cancelled := if told.cancelled then r.plan.pass :: ix.cancelled else ix.cancelled
    notices := ix.notices ++ told.notices
    running := some { r with phase := .joining summary told.tasks } }

/-- The walk of a running pass has ended. -/
def conclude (ix : Indexer) (r : Running) (walk : Walk) (ending : Walk.Ending) : Indexer :=
  match ending with
  | .cancelled => ix.endPass r .cancelled
  | .unreadable e => ix.endPass r (.failed (.unreadableEntry r.project.entry e))
  | .complete =>
    if ix.isCancelled r.plan.pass then ix.endPass r .cancelled
    else
      let changes := Changes.between r.plan.previous walk.index
      let summary : Summary :=
        { pass := r.plan.pass
          files := walk.index.size
          variants := walk.index.variantCount
          reused := walk.reused
          tokenized := walk.tokenized
          changes
          published := !changes.isEmpty }
      if changes.isEmpty then ix.endPass r (.completed summary)
      else ix.publish r walk.index summary

/-- Whether a task waits for a read that is held back. -/
def isHeld (ix : Indexer) (task : Task) : Bool := task.hold.any ix.files.isGated

/-- Do a task that nothing holds back. One that fails does nothing. -/
def perform (ix : Indexer) (pass : Nat) (task : Task) : Indexer :=
  if task.fails then ix
  else
    { ix with
      files := task.hold.elim ix.files ix.files.countRead
      works := ix.works ++ [(task.owner, ix.isCancelled pass)] }

/-- One step of the running pass; none where it waits for a read that is held back. -/
def advancePass? (ix : Indexer) (r : Running) : Option Indexer :=
  match r.phase with
  | .walking walk =>
    let files := match walk.stage with
      | .read path _ _ => if ix.files.isGated path then none else some (ix.files.countRead path)
      | _ => some ix.files
    match walk.ending?, files with
    | some ending, _ => some (ix.conclude r walk ending)
    | none, none => none
    | none, some files =>
      let walk := walk.step r.plan ix.files.view (ix.isCancelled r.plan.pass)
      some { ix with files, running := some { r with phase := .walking walk } }
  | .joining summary tasks =>
    let free := tasks.filter fun t => !ix.isHeld t
    let held := tasks.filter ix.isHeld
    if tasks.isEmpty then some (ix.endPass r (.completed summary))
    else if free.isEmpty then none
    else
      some (free.foldl (fun ix t => ix.perform r.plan.pass t)
        { ix with running := some { r with phase := .joining summary held } })

/-- One step of the indexer: the running pass goes on, or the next call gets its turn. None where
nothing can move. -/
def advance? (ix : Indexer) : Option Indexer :=
  match ix.running with
  | some r => ix.advancePass? r
  | none =>
    match ix.queue with
    | [] => none
    | job :: rest => some ({ ix with queue := rest }.grant job)

/-- Something that happens to an indexer or to its files. -/
inductive Action
  | call (c : Call)
  | write (path : Path) (content : String)
  | remove (path : Path)
  | failReads (path : Path)
  | gate (path : Path)
  | openGate
  | subscribe (s : Subscriber)
  | revoke (pass : Nat)
  | advance

/-- A subscriber that was told of a pass cancels it, at any time after that. -/
def revoke (ix : Indexer) (pass : Nat) : Indexer :=
  if ix.notices.any fun n => n.2.snapshot.pass == pass then
    { ix with cancelled := pass :: ix.cancelled }
  else ix

/-- What an action does. -/
def act (ix : Indexer) : Action → Indexer
  | .call c => ix.call c
  | .write path content => { ix with files := ix.files.write path content }
  | .remove path => { ix with files := ix.files.remove path }
  | .failReads path => { ix with files := ix.files.failReads path }
  | .gate path => { ix with files := ix.files.gate path }
  | .openGate => { ix with files := ix.files.openGate }
  | .subscribe s => { ix with subscribers := ix.subscribers ++ [s] }
  | .revoke pass => ix.revoke pass
  | .advance => ix.advance?.getD ix

/-- What actions do, one after the other. -/
def run (ix : Indexer) (actions : List Action) : Indexer := actions.foldl act ix

end Indexer

end AsmIndex

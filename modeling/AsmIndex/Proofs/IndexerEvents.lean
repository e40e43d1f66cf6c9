import AsmIndex.Indexer
import AsmIndex.Proofs.WalkMoves

/-!
The events of an indexer. Whatever happens to an indexer is one of the events below, each with
what has to hold for it and the state that it leaves; what each event preserves is preserved by
every run.
-/

namespace AsmIndex

namespace Memory

/-- The same files with the same failures; gates and the counts of reads may differ. -/
structure SameFiles (m m' : Memory) : Prop where
  files : m'.files = m.files
  clock : m'.clock = m.clock
  failing : m'.failing = m.failing

theorem SameFiles.refl (m : Memory) : m.SameFiles m := ⟨rfl, rfl, rfl⟩

theorem SameFiles.trans {a b c : Memory} (h : a.SameFiles b) (h' : b.SameFiles c) :
    a.SameFiles c :=
  ⟨h'.files.trans h.files, h'.clock.trans h.clock, h'.failing.trans h.failing⟩

theorem sameFiles_countRead (m : Memory) (path : Path) : m.SameFiles (m.countRead path) :=
  ⟨rfl, rfl, rfl⟩

theorem SameFiles.view_eq {m m' : Memory} (h : m.SameFiles m') : m'.view = m.view := by
  simp only [view, modified?, h.files, FileView.mk.injEq, true_and]
  funext path
  simp only [read, h.files, h.failing]

end Memory

namespace Walk

/-- The files once the walk has asked its question, where a read is counted. -/
def counted (w : Walk) (m : Memory) : Memory :=
  match w.stage with
  | .read path _ _ => m.countRead path
  | _ => m

theorem sameFiles_counted (w : Walk) (m : Memory) : m.SameFiles (w.counted m) := by
  unfold counted
  split
  · exact m.sameFiles_countRead _
  · exact .refl m

theorem gated_counted (w : Walk) (m : Memory) : (w.counted m).gated = m.gated := by
  unfold counted
  split <;> rfl

/-- A read of the walk that is held back. -/
def HeldBack (w : Walk) (m : Memory) : Prop :=
  ∃ path symbols time, w.stage = .read path symbols time ∧ m.isGated path = true

theorem not_heldBack (w : Walk) {m : Memory} (hopen : m.gated = OrderedMap.empty) :
    ¬ w.HeldBack m := by
  rintro ⟨path, symbols, time, _, hgate⟩
  simp [Memory.isGated, hopen] at hgate

end Walk

/-- What a completed pass reports of its walk. -/
def Running.summary (r : Running) (w : Walk) : Summary :=
  { pass := r.plan.pass
    files := w.index.size
    variants := w.index.variantCount
    reused := w.reused
    tokenized := w.tokenized
    changes := Changes.between r.plan.previous w.index
    published := !(Changes.between r.plan.previous w.index).isEmpty }

namespace Indexer

/-- A new indexer over files. -/
def new (config : Config) (files : Memory) : Indexer := { config, files }

/-- What a call that asks for a pass works with: its settings, its project and its request. -/
inductive Asks (ix : Indexer) : Call → Config → Project → Request → Prop
  | initial (directory : Path) (request : Request) :
      Asks ix (.initial directory request) ix.config
        (Project.of directory.normalized ix.config.entryFile) request
  | parse {project : Project} (request : Request) (established : ix.project = some project) :
      Asks ix (.parse request) ix.config project request
  | setConfig {config : Config} {project : Project} {request : Request}
      (changed : ix.config.searchChanged config = true) (established : ix.project = some project)
      (last : ix.lastRequest = some request) :
      Asks ix (.setConfig config) config (Project.of project.directory config.entryFile) request

/-- The pass that a call asks for. -/
def askedJob (ix : Indexer) (project : Project) (request : Request) : Job :=
  .pass ix.callCount (ix.passCount + 1) project request

/-- The indexer after a call has asked for a pass, which waits for its turn. -/
def asked (ix : Indexer) (config : Config) (project : Project) (request : Request) : Indexer :=
  { ix with
    config
    project := some project
    lastRequest := some request
    active := some (ix.passCount + 1)
    passCount := ix.passCount + 1
    cancelled := ix.active.toList ++ ix.cancelled
    callCount := ix.callCount + 1
    queue := ix.queue ++ [ix.askedJob project request] }

/-- The indexer after a call to stop, which waits for its turn. -/
def stopping (ix : Indexer) : Indexer :=
  { ix with
    active := none
    cancelled := ix.active.toList ++ ix.cancelled
    callCount := ix.callCount + 1
    queue := ix.queue ++ [.stop ix.callCount] }

/-- A pass whose turn has come. -/
def begun (ix : Indexer) (call id : Nat) (project : Project) (request : Request) : Running where
  call
  project
  plan := ix.planOf id project request
  phase := .walking (Walk.start project.entry (ix.symbolsOf request))

/-- The next call gets its turn. -/
inductive Turn (ix : Indexer) : Indexer → Prop
  | release {call rest} (free : ix.running = none) (next : ix.queue = .stop call :: rest) :
      Turn ix ({ ix with queue := rest }.report call .stopped)
  | dismiss {call id project request rest} (free : ix.running = none)
      (next : ix.queue = .pass call id project request :: rest)
      (cancelled : ix.isCancelled id = true) :
      Turn ix ({ ix with queue := rest }.report call .cancelled)
  | start {call id project request rest} (free : ix.running = none)
      (next : ix.queue = .pass call id project request :: rest)
      (valid : ix.isCancelled id = false) :
      Turn ix
        { ix with
          queue := rest
          state := .running
          running := some (ix.begun call id project request) }

/-- The next call waits on or gets its turn at once. -/
def Waits (ix ix' : Indexer) : Prop := ix' = ix ∨ Turn ix ix'

theorem Waits.preserves {P : Indexer → Prop}
    (hturn : ∀ {ix ix' : Indexer}, Turn ix ix' → P ix → P ix')
    {ix ix' : Indexer} (h : Waits ix ix') (hix : P ix) : P ix' := by
  rcases h with rfl | h
  · exact hix
  · exact hturn h hix

/-- What comes of telling the subscribers of the index of a walk. -/
def announced (ix : Indexer) (r : Running) (w : Walk) : Told :=
  tell
    { changes := Changes.between r.plan.previous w.index
      snapshot := ⟨r.plan.pass, w.index⟩
      cancelled := ix.isCancelled r.plan.pass
      published := true
      state := ix.state } ix.subscribers

theorem publish_eq (ix : Indexer) (r : Running) (w : Walk) :
    ix.publish r w.index (r.summary w) =
      { ix with
        snapshot := ⟨r.plan.pass, w.index⟩
        cancelled := if (ix.announced r w).cancelled then r.plan.pass :: ix.cancelled
          else ix.cancelled
        notices := ix.notices ++ (ix.announced r w).notices
        running := some { r with
          phase := .joining (r.summary w) (ix.announced r w).tasks } } := by
  simp [publish, announced, Running.summary, isCancelled]

/-- What actions do to the files. -/
inductive FileChange (m : Memory) : Action → Memory → Prop
  | write (path : Path) (content : String) :
      FileChange m (.write path content) (m.write path content)
  | remove (path : Path) : FileChange m (.remove path) (m.remove path)
  | failReads (path : Path) : FileChange m (.failReads path) (m.failReads path)
  | gate (path : Path) : FileChange m (.gate path) (m.gate path)
  | openGate : FileChange m .openGate m.openGate

/-- What an action does to an indexer. -/
inductive Event (ix : Indexer) : Action → Indexer → Prop
  | ask {c config project request ix'} (asks : Asks ix c config project request)
      (waits : Waits (ix.asked config project request) ix') : Event ix (.call c) ix'
  /-- There is no project yet. -/
  | refuse {c config} (none : ix.project = none)
      (kind : (∃ request, c = .parse request ∧ config = ix.config) ∨ c = .setConfig config) :
      Event ix (.call c)
        ({ ix with config, state := .failed, callCount := ix.callCount + 1 }.report ix.callCount
          (.failed .noProject))
  /-- New settings without a pass: nothing of the search changed, or no pass was ever asked for. -/
  | configure {config project}
      (quiet : (ix.config.searchChanged config = false ∧ project = ix.project) ∨
        (ix.lastRequest = none ∧
          project = ix.project.map fun p => Project.of p.directory config.entryFile)) :
      Event ix (.call (.setConfig config))
        ({ ix with config, project, callCount := ix.callCount + 1 }.report ix.callCount .noPass)
  | stop {ix'} (waits : Waits ix.stopping ix') : Event ix (.call .stop) ix'
  | files {a m} (change : FileChange ix.files a m) : Event ix a { ix with files := m }
  | subscribe (s : Subscriber) :
      Event ix (.subscribe s) { ix with subscribers := ix.subscribers ++ [s] }
  | revoke {pass} (told : ∃ n ∈ ix.notices, n.2.snapshot.pass = pass) :
      Event ix (.revoke pass) { ix with cancelled := pass :: ix.cancelled }
  | idle {a} (kind : a = .advance ∨ ∃ pass, a = .revoke pass) : Event ix a ix
  | turn {ix'} (h : Turn ix ix') : Event ix .advance ix'
  | walk {r w} (running : ix.running = some r) (phase : r.phase = .walking w)
      (going : w.ending? = none) (free : ¬ w.HeldBack ix.files) :
      Event ix .advance
        { ix with
          files := w.counted ix.files
          running := some { r with
            phase := .walking (w.step r.plan ix.files.view (ix.isCancelled r.plan.pass)) } }
  /-- The walk gave up, or the pass was cancelled behind its back. -/
  | abandon {r w ending} (running : ix.running = some r) (phase : r.phase = .walking w)
      (ended : w.ending? = some ending)
      (cause : ending = .cancelled ∨ ending = .complete ∧ ix.isCancelled r.plan.pass = true) :
      Event ix .advance (ix.endPass r .cancelled)
  | fail {r w e} (running : ix.running = some r) (phase : r.phase = .walking w)
      (ended : w.ending? = some (.unreadable e)) :
      Event ix .advance (ix.endPass r (.failed (.unreadableEntry r.project.entry e)))
  | unchanged {r w} (running : ix.running = some r) (phase : r.phase = .walking w)
      (ended : w.ending? = some .complete) (valid : ix.isCancelled r.plan.pass = false)
      (same : (Changes.between r.plan.previous w.index).isEmpty = true) :
      Event ix .advance (ix.endPass r (.completed (r.summary w)))
  | publish {r w} (running : ix.running = some r) (phase : r.phase = .walking w)
      (ended : w.ending? = some .complete) (valid : ix.isCancelled r.plan.pass = false)
      (changed : (Changes.between r.plan.previous w.index).isEmpty = false) :
      Event ix .advance (ix.publish r w.index (r.summary w))
  /-- Attached tasks that nothing holds back are done; those left are held back. -/
  | work {r summary tasks m works} (running : ix.running = some r)
      (phase : r.phase = .joining summary tasks) (same : ix.files.SameFiles m)
      (done : works.map Prod.fst =
        ((tasks.filter fun t => !ix.isHeld t).filter fun t => !t.fails).map Task.owner) :
      Event ix .advance
        { ix with
          files := m
          works := ix.works ++ works
          running := some { r with phase := .joining summary (tasks.filter ix.isHeld) } }
  | join {r summary} (running : ix.running = some r) (phase : r.phase = .joining summary []) :
      Event ix .advance (ix.endPass r (.completed summary))

theorem foldl_perform (tasks : List Task) (pass : Nat) (ix : Indexer) :
    ∃ m works, tasks.foldl (fun ix t => ix.perform pass t) ix =
        { ix with files := m, works := ix.works ++ works } ∧
      ix.files.SameFiles m ∧
      works.map Prod.fst = (tasks.filter fun t => !t.fails).map Task.owner := by
  induction tasks generalizing ix with
  | nil => exact ⟨ix.files, [], by simp, .refl _, rfl⟩
  | cons t rest ih =>
      rw [List.foldl_cons]
      obtain ⟨m, works, hfold, hsame, hworks⟩ := ih (ix.perform pass t)
      rw [hfold]
      cases hfails : t.fails with
      | true =>
          have hix : ix.perform pass t = ix := by simp [perform, hfails]
          rw [hix] at hsame ⊢
          exact ⟨m, works, rfl, hsame, by simp [hfails, hworks]⟩
      | false =>
          have hix : ix.perform pass t =
              { ix with
                files := t.hold.elim ix.files ix.files.countRead
                works := ix.works ++ [(t.owner, ix.isCancelled pass)] } := by
            simp [perform, hfails]
          rw [hix] at hsame ⊢
          refine ⟨m, (t.owner, ix.isCancelled pass) :: works, by simp,
            ?_, by simp [hfails, hworks]⟩
          refine Memory.SameFiles.trans ?_ hsame
          cases t.hold with
          | none => exact .refl _
          | some path => exact ix.files.sameFiles_countRead path

theorem grant_turn {ix : Indexer} {job : Job} {rest : List Job} (free : ix.running = none)
    (next : ix.queue = job :: rest) : Turn ix ({ ix with queue := rest }.grant job) := by
  cases job with
  | stop call => exact .release free next
  | pass call id project request =>
      simp only [grant]
      split
      · rename_i cancelled
        exact .dismiss free next cancelled
      · rename_i valid
        exact .start free next (Bool.eq_false_iff.mpr valid)

theorem enqueue_waits (ix : Indexer) (job : Job) :
    Waits { ix with queue := ix.queue ++ [job] } (ix.enqueue job) := by
  unfold enqueue
  split
  · rename_i idle
    simp only [Bool.and_eq_true, Option.isNone_iff_eq_none, List.isEmpty_iff] at idle
    have hturn : Turn { ix with queue := ix.queue ++ [job] } ({ ix with queue := [] }.grant job) :=
      grant_turn idle.1 (by simp [idle.2])
    have hix : { ix with queue := [] } = ix := by rw [← idle.2]
    rw [hix] at hturn
    exact .inr hturn
  · exact .inl rfl

theorem conclude_event {ix : Indexer} {r : Running} {w : Walk} {ending : Walk.Ending}
    (running : ix.running = some r) (phase : r.phase = .walking w)
    (ended : w.ending? = some ending) : Event ix .advance (ix.conclude r w ending) := by
  cases ending with
  | cancelled => exact .abandon running phase ended (.inl rfl)
  | unreadable e => exact .fail running phase ended
  | complete =>
      cases hcancelled : ix.isCancelled r.plan.pass with
      | true =>
          have h := Event.abandon running phase ended (.inr ⟨rfl, hcancelled⟩)
          simpa [conclude, hcancelled] using h
      | false =>
          cases hsame : (Changes.between r.plan.previous w.index).isEmpty with
          | true =>
              have h := Event.unchanged running phase ended hcancelled hsame
              simpa [conclude, hcancelled, hsame, Running.summary] using h
          | false =>
              have h := Event.publish running phase ended hcancelled hsame
              simpa [conclude, hcancelled, hsame, Running.summary] using h

theorem stop_waits (ix : Indexer) : Waits ix.stopping (ix.act (.call .stop)) :=
  enqueue_waits _ _

theorem parse_waits {ix : Indexer} {project : Project} (established : ix.project = some project)
    (request : Request) :
    Waits (ix.asked ix.config project request) (ix.act (.call (.parse request))) := by
  simp only [act, call, requestPass, established]
  rw [asked, ← established]
  exact enqueue_waits _ _

theorem setConfig_waits {ix : Indexer} {config : Config} {project : Project} {request : Request}
    (established : ix.project = some project) (last : ix.lastRequest = some request)
    (changed : ix.config.searchChanged config = true) :
    Waits (ix.asked config (Project.of project.directory config.entryFile) request)
      (ix.act (.call (.setConfig config))) := by
  simp only [act, call, changeConfig, changed, last, requestPass, established, Bool.not_true,
    Bool.false_eq_true, if_false, Option.map_some]
  exact enqueue_waits _ _

theorem call_event (ix : Indexer) (c : Call) : Event ix (.call c) (ix.call c) := by
  cases c with
  | initial directory request =>
      refine .ask (.initial directory request) ?_
      exact enqueue_waits _ _
  | parse request =>
      cases hproject : ix.project with
      | none =>
          have h : Event ix (.call (.parse request)) _ :=
            .refuse hproject (.inl ⟨request, rfl, rfl⟩)
          simpa only [call, requestPass, hproject] using h
      | some project => exact .ask (.parse request hproject) (parse_waits hproject request)
  | setConfig config =>
      cases hchanged : ix.config.searchChanged config with
      | false =>
          have h : Event ix (.call (.setConfig config)) _ := .configure (.inl ⟨hchanged, rfl⟩)
          simpa [call, changeConfig, hchanged] using h
      | true =>
          cases hlast : ix.lastRequest with
          | none =>
              have h : Event ix (.call (.setConfig config)) _ := .configure (.inr ⟨hlast, rfl⟩)
              simpa [call, changeConfig, hchanged, hlast] using h
          | some request =>
              cases hproject : ix.project with
              | none =>
                  have h : Event ix (.call (.setConfig config)) _ :=
                    .refuse hproject (.inr rfl)
                  simpa [call, changeConfig, hchanged, hlast, requestPass, hproject] using h
              | some project =>
                  exact .ask (.setConfig hchanged hproject hlast)
                    (setConfig_waits hproject hlast hchanged)
  | stop => exact .stop ix.stop_waits

theorem act_advance_walk {ix : Indexer} {r : Running} {w : Walk} (running : ix.running = some r)
    (phase : r.phase = .walking w) (going : w.ending? = none) (free : ¬ w.HeldBack ix.files) :
    ix.act .advance =
      { ix with
        files := w.counted ix.files
        running := some { r with
          phase := .walking (w.step r.plan ix.files.view (ix.isCancelled r.plan.pass)) } } := by
  simp only [act, advance?, running, advancePass?, phase, going]
  cases hstage : w.stage with
  | read path symbols time =>
      have hgate : ix.files.isGated path = false := by
        by_contra hg
        exact free ⟨path, symbols, time, hstage, by simpa using hg⟩
      simp [hgate, Walk.counted, hstage]
  | _ => simp [Walk.counted, hstage]

theorem advance_event (ix : Indexer) : Event ix .advance (ix.act .advance) := by
  simp only [act, advance?]
  cases hrunning : ix.running with
  | none =>
      cases hqueue : ix.queue with
      | nil => exact .idle (.inl rfl)
      | cons job rest => simpa [hrunning] using Event.turn (grant_turn hrunning hqueue)
  | some r =>
      simp only [advancePass?]
      cases hphase : r.phase with
      | walking w =>
          cases hended : w.ending? with
          | some ending => simpa [hended] using conclude_event hrunning hphase hended
          | none =>
              by_cases hheld : w.HeldBack ix.files
              · obtain ⟨path, symbols, time, hstage, hgate⟩ := hheld
                simpa [hended, hstage, hgate] using (.idle (.inl rfl) : Event ix .advance ix)
              · have h := Event.walk hrunning hphase hended hheld
                rw [← act_advance_walk hrunning hphase hended hheld] at h
                simpa [act, advance?, hrunning, advancePass?, hphase] using h
      | joining summary tasks =>
          cases tasks with
          | nil => simpa using Event.join hrunning hphase
          | cons t more =>
              dsimp only
              split
              · simp_all
              · split
                · exact .idle (.inl rfl)
                · obtain ⟨m, works, hfold, hsame, hworks⟩ := foldl_perform
                    ((t :: more).filter fun t => !ix.isHeld t) r.plan.pass
                    { ix with running := some { r with
                        phase := .joining summary ((t :: more).filter ix.isHeld) } }
                  rw [hfold, Option.getD_some]
                  exact .work hrunning hphase hsame hworks

theorem act_event (ix : Indexer) (a : Action) : Event ix a (ix.act a) := by
  cases a with
  | call c => exact call_event ix c
  | write path content => exact .files (.write path content)
  | remove path => exact .files (.remove path)
  | failReads path => exact .files (.failReads path)
  | gate path => exact .files (.gate path)
  | openGate => exact .files .openGate
  | subscribe s => exact .subscribe s
  | revoke pass =>
      simp only [act, revoke]
      split
      · rename_i told
        exact .revoke (by simpa using told)
      · exact .idle (.inr ⟨pass, rfl⟩)
  | advance => exact advance_event ix

/-- What stays when a call waits or gets its turn. -/
theorem waits_frame {ix ix' : Indexer} (h : Waits ix ix') :
    ix'.snapshot = ix.snapshot ∧ ix'.notices = ix.notices ∧ ix'.passCount = ix.passCount ∧
      ix'.active = ix.active ∧ ix'.cancelled = ix.cancelled := by
  rcases h with rfl | h
  · simp
  · cases h <;> simp [report]

theorem event_silent_or_publish {ix ix' : Indexer} {a : Action} (h : Event ix a ix') :
    (ix'.snapshot = ix.snapshot ∧ ix'.notices = ix.notices) ∨
      ∃ r w, ix.running = some r ∧ r.phase = .walking w ∧ w.ending? = some .complete ∧
        ix.isCancelled r.plan.pass = false ∧
        (Changes.between r.plan.previous w.index).isEmpty = false ∧
        ix' = ix.publish r w.index (r.summary w) := by
  cases h with
  | ask asks waits | stop waits =>
      obtain ⟨hsnapshot, hnotices, _⟩ := waits_frame waits
      exact .inl ⟨hsnapshot, hnotices⟩
  | turn h =>
      obtain ⟨hsnapshot, hnotices, _⟩ := waits_frame (.inr h)
      exact .inl ⟨hsnapshot, hnotices⟩
  | publish running phase ended valid changed =>
      exact .inr ⟨_, _, running, phase, ended, valid, changed, rfl⟩
  | _ => exact .inl ⟨rfl, rfl⟩

theorem run_nil (ix : Indexer) : ix.run [] = ix := rfl

theorem run_cons (ix : Indexer) (a : Action) (rest : List Action) :
    ix.run (a :: rest) = (ix.act a).run rest := rfl

theorem run_append (ix : Indexer) (before after : List Action) :
    ix.run (before ++ after) = (ix.run before).run after :=
  List.foldl_append

theorem run_preserves_mem {P : Indexer → Prop} {actions : List Action}
    (hevent : ∀ {ix ix' : Indexer} {a : Action}, a ∈ actions → Event ix a ix' →
      P ix → P ix')
    {ix : Indexer} (h : P ix) : P (ix.run actions) := by
  induction actions generalizing ix with
  | nil => exact h
  | cons a rest ih =>
      refine ih (fun ha => hevent (List.mem_cons_of_mem _ ha)) ?_
      exact hevent List.mem_cons_self (act_event ix a) h

theorem run_preserves {P : Indexer → Prop}
    (hevent : ∀ {ix ix' : Indexer} {a : Action}, Event ix a ix' → P ix → P ix')
    {ix : Indexer} (h : P ix) (actions : List Action) : P (ix.run actions) :=
  run_preserves_mem (fun _ => hevent) h

end Indexer

end AsmIndex

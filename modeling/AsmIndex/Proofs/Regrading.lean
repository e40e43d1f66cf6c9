import AsmIndex.Proofs.EquivalentSettings

/-!
The severity of imports that are not found. A first pass has nothing to compare its findings with,
so the severity goes into the diagnostics of such imports and nowhere else: to change it in the
settings is to change it in these diagnostics afterwards. The change commutes with every step of
the walk and with every action that neither asks for a further pass nor brings a subscriber.
-/

namespace AsmIndex

/-- The diagnostic with another severity, if it is about an import that is not found. -/
def Diagnostic.regrade (severity : Severity) (d : Diagnostic) : Diagnostic :=
  if d.code = .unresolvedImport then { d with severity } else d

/-- The variant with another severity of the imports that are not found. -/
def Variant.regrade (severity : Severity) (v : Variant) : Variant :=
  { v with resolutionDiagnostics := v.resolutionDiagnostics.map (Diagnostic.regrade severity) }

theorem Variant.regrade_of_nil (severity : Severity) {v : Variant}
    (h : v.resolutionDiagnostics = []) : v.regrade severity = v := by
  rw [regrade, h, List.map_nil, ← h]

namespace Index

/-- The index with another severity of the imports that are not found. -/
def regrade (severity : Severity) (index : Index) : Index :=
  ⟨index.files.mapValues (OrderedMap.mapValues (Variant.regrade severity))⟩

variable (severity : Severity) (index : Index)

theorem get?_regrade (p : Path) (s : Symbols) :
    (index.regrade severity).get? p s = (index.get? p s).map (Variant.regrade severity) := by
  simp only [get?, regrade, OrderedMap.get?_mapValues]
  cases index.files.get? p with
  | none => rfl
  | some set => exact OrderedMap.get?_mapValues _ set s

theorem contains_regrade (p : Path) (s : Symbols) :
    (index.regrade severity).contains p s = index.contains p s := by
  simp only [contains, get?_regrade, Option.isSome_map]

theorem regrade_insert (p : Path) (s : Symbols) (v : Variant) :
    (index.insert p s v).regrade severity =
      (index.regrade severity).insert p s (v.regrade severity) := by
  simp only [regrade, insert, OrderedMap.mapValues_insert, OrderedMap.get?_mapValues]
  cases index.files.get? p <;> rfl

theorem size_regrade : (index.regrade severity).size = index.size := by
  simp [size, regrade, OrderedMap.size, OrderedMap.mapValues]

theorem variantCount_regrade : (index.regrade severity).variantCount = index.variantCount := by
  simp only [variantCount, variants, regrade, OrderedMap.values_mapValues, List.flatMap_map,
    List.length_flatMap, List.length_map]

/-- Against the empty index every file is added, whatever its variants say. -/
theorem between_regrade :
    Changes.between {} (index.regrade severity) = Changes.between {} index := by
  simp only [Changes.between, paths, regrade, OrderedMap.keys_mapValues]
  simp [OrderedMap.get?, OrderedMap.lookup, OrderedMap.empty, OrderedMap.keys]

end Index

namespace Walk

/-- The frame with another severity of the imports that are not found. -/
def Frame.regrade (severity : Severity) (f : Frame) : Frame :=
  { f with problems := f.problems.map (Diagnostic.regrade severity) }

/-- The stage with another severity of the imports that are not found. -/
def Stage.regrade (severity : Severity) : Stage → Stage
  | .follow f => .follow (f.regrade severity)
  | .probe f r candidates => .probe (f.regrade severity) r candidates
  | stage => stage

/-- The walk with another severity of the imports that are not found. -/
def regrade (severity : Severity) (w : Walk) : Walk :=
  { w with
    index := w.index.regrade severity
    stack := w.stack.map fun x => (x.1.regrade severity, x.2)
    stage := w.stage.regrade severity }

/-- The open files were opened without any problem of their imports. -/
def Untroubled (w : Walk) : Prop := ∀ x ∈ w.opened, x.1.variant.resolutionDiagnostics = []

section Regrade

variable {plan : Plan} {view : FileView} {cancelled : Bool} {w w' : Walk} (severity : Severity)

theorem move_untroubled (h : Move plan view cancelled w w') (hprevious : plan.previous = {})
    (hw : w.Untroubled) : w'.Untroubled := by
  have hfresh : ∀ p s v, plan.previous.get? p s ≠ some v := by
    intro p s v hv
    rw [hprevious] at hv
    cases hv
  intro x hx
  rcases move_opened h hx with ⟨y, hy, _, _, hvariant⟩ | hregisters
  · rw [← hvariant]
    exact hw y hy
  · generalize x.1.variant = v at hregisters
    cases hregisters with
    | reuseLive _ _ previous _ => exact absurd previous (hfresh _ _ _)
    | reuseStored _ _ previous _ => exact absurd previous (hfresh _ _ _)
    | scanLive _ _ _ => rfl
    | scanStored _ _ => rfl

theorem register_regrade (w : Walk) (path : Path) (symbols : Symbols) {v : Variant}
    (hv : v.resolutionDiagnostics = []) :
    (w.regrade severity).register path symbols v =
      (w.register path symbols v).regrade severity := by
  simp only [register, regrade, Index.regrade_insert, Variant.regrade_of_nil severity hv]
  rfl

theorem tokenize_regrade (w : Walk) (path : Path) (symbols : Symbols) (text : String)
    (modified : Nat) (live : Option String) :
    (w.regrade severity).tokenize { plan with severity } path symbols text modified live =
      (w.tokenize plan path symbols text modified live).regrade severity :=
  register_regrade severity { w with tokenized := w.tokenized + 1, made := w.made + 1 } path symbols
    rfl

theorem add_regrade (f : Frame) (r : Reference) (problem : Option Diagnostic) :
    (f.add r problem).regrade severity =
      (f.regrade severity).add r (problem.map (Diagnostic.regrade severity)) := by
  cases problem <;> simp [Frame.add, Frame.regrade]

theorem enter_regrade (hprevious : plan.previous = {}) (w : Walk) (path : Path)
    (symbols : Symbols) :
    (w.regrade severity).enter { plan with severity } path symbols =
      (w.enter plan path symbols).regrade severity := by
  have hcontains : (w.regrade severity).index.contains path symbols =
      w.index.contains path symbols :=
    w.index.contains_regrade severity path symbols
  simp only [enter, hcontains]
  split
  · rfl
  · cases plan.live.get? path with
    | none => rfl
    | some buffer =>
        simp only [enterLive, hprevious, Index.get?_empty]
        exact tokenize_regrade severity w path symbols _ _ _

theorem stamp_regrade (hprevious : plan.previous = {}) (w : Walk) (path : Path) (symbols : Symbols)
    (answer : Except FileError Nat) :
    (w.regrade severity).stamp { plan with severity } path symbols answer =
      (w.stamp plan path symbols answer).regrade severity := by
  cases answer with
  | error e => rfl
  | ok modified =>
      simp only [stamp, hprevious, Index.get?_empty]
      rfl

theorem read_regrade (w : Walk) (path : Path) (symbols : Symbols) (modified : Nat)
    (answer : Except FileError String) :
    (w.regrade severity).read { plan with severity } path symbols modified answer =
      (w.read plan path symbols modified answer).regrade severity := by
  cases answer with
  | error e => rfl
  | ok text => exact tokenize_regrade severity w path symbols text modified none

/-- Problems are there or not, whatever their severity. -/
theorem finish_regrade (w : Walk) {f : Frame} (hf : f.variant.resolutionDiagnostics = []) :
    (w.regrade severity).finish { plan with severity } (f.regrade severity) =
      (w.finish plan f).regrade severity := by
  have hsame : (Variant.sameReferences (f.regrade severity).followed
          (f.regrade severity).variant.references &&
        (f.regrade severity).problems == (f.regrade severity).variant.resolutionDiagnostics) =
      (Variant.sameReferences f.followed f.variant.references &&
        f.problems == f.variant.resolutionDiagnostics) := by
    simp only [Frame.regrade, hf]
    cases f.problems <;> rfl
  simp only [finish, hsame]
  split
  · rfl
  · simp only [regrade, Index.regrade_insert]
    rfl

theorem missing_regrade (w : Walk) (f : Frame) (r : Reference) :
    (w.regrade severity).missing { plan with severity } (f.regrade severity) r =
      (w.missing plan f r).regrade severity := by
  simp only [missing, regrade, Stage.regrade, add_regrade]
  rfl

theorem arrive_regrade (w : Walk) (f : Frame) (r : Reference) (target : Path) :
    (w.regrade severity).arrive (f.regrade severity) r target =
      (w.arrive f r target).regrade severity := by
  have hcontains : ∀ s,
      (w.regrade severity).index.contains target s = w.index.contains target s :=
    w.index.contains_regrade severity target
  have honce : (w.regrade severity).once = w.once := rfl
  simp only [arrive, hcontains, honce]
  split
  · simp only [regrade, Stage.regrade, add_regrade]
    rfl
  · rfl

theorem leave_regrade (w : Walk) (failure : Option FileError) :
    (w.regrade severity).leave failure = (w.leave failure).regrade severity := by
  obtain ⟨index, once, reused, tokenized, made, stack, stage⟩ := w
  cases stack with
  | nil => cases failure <;> rfl
  | cons x stack =>
      simp only [leave, regrade, List.map_cons, Stage.regrade, add_regrade]
      cases failure <;> rfl

/-- A step of a walk that has nothing to compare with works at any severity alike. -/
theorem step_regrade (hprevious : plan.previous = {}) (hw : w.Untroubled) :
    (w.regrade severity).step { plan with severity } view cancelled =
      (w.step plan view cancelled).regrade severity := by
  have hstage : (w.regrade severity).stage = w.stage.regrade severity := rfl
  cases stage : w.stage with
  | enter path symbols =>
      simp only [step, hstage, stage, Stage.regrade]
      split
      · rfl
      · exact enter_regrade severity hprevious w path symbols
  | stamp path symbols =>
      simp only [step, hstage, stage, Stage.regrade]
      exact stamp_regrade severity hprevious w path symbols _
  | read path symbols modified =>
      simp only [step, hstage, stage, Stage.regrade]
      exact read_regrade severity w path symbols modified _
  | follow f =>
      have hpending : (f.regrade severity).pending = f.pending := rfl
      have hf : f.variant.resolutionDiagnostics = [] := hw (f, []) (by simp [opened_follow stage])
      simp only [step, hstage, stage, Stage.regrade, hpending]
      cases f.pending with
      | nil => exact finish_regrade severity w hf
      | cons r pending =>
          dsimp only
          split <;> rfl
  | probe f r candidates =>
      cases candidates with
      | nil =>
          simp only [step, hstage, stage, Stage.regrade]
          exact missing_regrade severity w f r
      | cons path rest =>
          simp only [step, hstage, stage, Stage.regrade]
          split
          · exact arrive_regrade severity w f r path
          · rfl
  | leave failure =>
      simp only [step, hstage, stage, Stage.regrade]
      exact leave_regrade severity w failure
  | ended ending => simp only [step, hstage, stage, Stage.regrade]

end Regrade

end Walk

/-- The pass with another severity of the imports that are not found. -/
def Running.regrade (severity : Severity) (r : Running) : Running :=
  { r with
    plan := { r.plan with severity }
    phase :=
      match r.phase with
      | .walking w => .walking (w.regrade severity)
      | .joining summary tasks => .joining summary tasks }

namespace Indexer

/-- The indexer with another severity of the imports that are not found, in its settings and in
what it has found. -/
def regrade (severity : Severity) (ix : Indexer) : Indexer :=
  { ix with
    config := { ix.config with unresolvedImportSeverity := severity }
    snapshot := ⟨ix.snapshot.pass, ix.snapshot.index.regrade severity⟩
    running := ix.running.map (Running.regrade severity) }

/-- An action that neither asks for a pass, nor changes the settings, nor brings a subscriber. -/
def Action.isIncidental : Action → Bool
  | .call .stop => true
  | .call _ => false
  | .subscribe _ => false
  | _ => true

/-- No pass was asked for but the first, and nobody has subscribed. -/
structure FirstOnly (ix : Indexer) : Prop where
  unheard : ix.subscribers = []
  waiting : ∀ job ∈ ix.queue, ∃ call, job = .stop call
  previous : ∀ {r}, ix.running = some r → r.plan.previous = {}
  untroubled : ∀ {r w}, ix.running = some r → r.phase = .walking w → w.Untroubled
  taskless : ∀ {r summary tasks}, ix.running = some r → r.phase = .joining summary tasks →
    tasks = []

section Regrade

variable {ix ix' : Indexer} {a : Action} (severity : Severity)

theorem waits_firstOnly (h : Waits ix ix') (hix : ix.FirstOnly) : ix'.FirstOnly := by
  refine h.preserves (fun hturn hix => ?_) hix
  cases hturn with
  | release _ next =>
      refine ⟨hix.unheard, fun job hjob => hix.waiting job ?_, hix.previous, hix.untroubled,
        hix.taskless⟩
      rw [next]
      exact List.mem_cons_of_mem _ hjob
  | dismiss _ next _ =>
      obtain ⟨_, hstop⟩ := hix.waiting _ (next ▸ List.mem_cons_self)
      cases hstop
  | start _ next _ =>
      obtain ⟨_, hstop⟩ := hix.waiting _ (next ▸ List.mem_cons_self)
      cases hstop

/-- Without a call for another pass, the first one stays the only one. -/
theorem event_firstOnly (h : Event ix a ix') (ha : a.isIncidental = true) (hix : ix.FirstOnly) :
    ix'.FirstOnly := by
  have hover : ∀ {r outcome}, (ix.endPass r outcome).FirstOnly := by
    intro r outcome
    refine ⟨hix.unheard, hix.waiting, ?_, ?_, ?_⟩ <;> simp [endPass, report]
  cases h with
  | ask asks _ => cases asks <;> cases ha
  | refuse _ kind => rcases kind with ⟨_, rfl, _⟩ | rfl <;> cases ha
  | configure _ => cases ha
  | subscribe _ => cases ha
  | stop waits =>
      refine waits_firstOnly waits ⟨hix.unheard, fun job hjob => ?_, hix.previous, hix.untroubled,
        hix.taskless⟩
      rcases List.mem_append.1 hjob with hjob | hjob
      · exact hix.waiting job hjob
      · exact ⟨_, List.mem_singleton.1 hjob⟩
  | turn h => exact waits_firstOnly (.inr h) hix
  | walk running phase _ _ =>
      have hprevious := hix.previous running
      refine ⟨hix.unheard, hix.waiting, ?_, ?_, ?_⟩
      · rintro _ ⟨⟩
        exact hprevious
      · rintro _ _ ⟨⟩ ⟨⟩
        exact Walk.move_untroubled (Walk.step_move _ _ _ _) hprevious (hix.untroubled running phase)
      · rintro _ _ _ ⟨⟩ ⟨⟩
  | publish running _ _ _ _ =>
      have hprevious := hix.previous running
      refine ⟨hix.unheard, hix.waiting, ?_, ?_, ?_⟩
      · rintro _ ⟨⟩
        exact hprevious
      · rintro _ _ ⟨⟩ ⟨⟩
      · rintro _ _ _ ⟨⟩ ⟨⟩
        rw [hix.unheard, tell]
  | work running phase _ _ =>
      have hprevious := hix.previous running
      refine ⟨hix.unheard, hix.waiting, ?_, ?_, ?_⟩
      · rintro _ ⟨⟩
        exact hprevious
      · rintro _ _ ⟨⟩ ⟨⟩
      · rintro _ _ _ ⟨⟩ ⟨⟩
        rw [hix.taskless running phase, List.filter_nil]
  | abandon _ _ _ _ => exact hover
  | fail _ _ _ => exact hover
  | unchanged _ _ _ _ _ => exact hover
  | join _ _ => exact hover
  | _ => exact ⟨hix.unheard, hix.waiting, hix.previous, hix.untroubled, hix.taskless⟩

theorem publish_regrade (hunheard : ix.subscribers = []) (r : Running) (index : Index)
    (summary : Summary) :
    (ix.regrade severity).publish (r.regrade severity) (index.regrade severity) summary =
      (ix.publish r index summary).regrade severity := by
  have hunheard' : (ix.regrade severity).subscribers = [] := hunheard
  simp only [publish, hunheard, hunheard', tell]
  rfl

theorem conclude_regrade (hunheard : ix.subscribers = []) {r : Running}
    (hprevious : r.plan.previous = {}) (w : Walk) (ending : Walk.Ending) :
    (ix.regrade severity).conclude (r.regrade severity) (w.regrade severity) ending =
      (ix.conclude r w ending).regrade severity := by
  cases ending with
  | cancelled => rfl
  | unreadable e => rfl
  | complete =>
      have hcancelled : (ix.regrade severity).isCancelled (r.regrade severity).plan.pass =
          ix.isCancelled r.plan.pass := rfl
      have hprevious' : (r.regrade severity).plan.previous = {} := hprevious
      have hindex : (w.regrade severity).index = w.index.regrade severity := rfl
      simp only [conclude, hcancelled, hprevious, hprevious', hindex, Index.between_regrade,
        Index.size_regrade, Index.variantCount_regrade]
      split
      · rfl
      · split
        · rfl
        · exact publish_regrade severity hunheard r w.index _

theorem advancePass?_regrade (hix : ix.FirstOnly) {r : Running} (running : ix.running = some r) :
    (ix.regrade severity).advancePass? (r.regrade severity) =
      (ix.advancePass? r).map (regrade severity) := by
  have hprevious := hix.previous running
  obtain ⟨call, project, plan, phase⟩ := r
  cases phase with
  | joining summary tasks =>
      obtain rfl := hix.taskless running rfl
      rfl
  | walking w =>
      have hstep : (w.regrade severity).step { plan with severity } ix.files.view
            (ix.isCancelled plan.pass) =
          (w.step plan ix.files.view (ix.isCancelled plan.pass)).regrade severity :=
        Walk.step_regrade severity hprevious (hix.untroubled running rfl)
      have hstage : (w.regrade severity).stage = w.stage.regrade severity := rfl
      have hfiles : (ix.regrade severity).files = ix.files := rfl
      have hcancelled : (ix.regrade severity).isCancelled plan.pass = ix.isCancelled plan.pass :=
        rfl
      cases stage : w.stage with
      | ended ending =>
          simp only [advancePass?, Running.regrade, Walk.ending?, hstage, stage, Walk.Stage.regrade]
          exact congrArg some (conclude_regrade severity hix.unheard hprevious w ending)
      | read path symbols modified =>
          simp only [advancePass?, Running.regrade, Walk.ending?, hstage, stage, Walk.Stage.regrade,
            hfiles, hcancelled, hstep]
          cases ix.files.isGated path <;> rfl
      | _ =>
          simp only [advancePass?, Running.regrade, Walk.ending?, hstage, stage, Walk.Stage.regrade,
            hfiles, hcancelled, hstep]
          rfl

theorem advance?_regrade (hix : ix.FirstOnly) :
    (ix.regrade severity).advance? = ix.advance?.map (regrade severity) := by
  cases running : ix.running with
  | some r =>
      have running' : (ix.regrade severity).running = some (r.regrade severity) := by
        simp only [regrade, running, Option.map_some]
      simp only [advance?, running, running']
      exact advancePass?_regrade severity hix running
  | none =>
      have running' : (ix.regrade severity).running = none := by
        simp only [regrade, running, Option.map_none]
      have hqueue : (ix.regrade severity).queue = ix.queue := rfl
      simp only [advance?, running, running', hqueue]
      cases queue : ix.queue with
      | nil => rfl
      | cons job rest =>
          obtain ⟨call, rfl⟩ := hix.waiting job (by simp [queue])
          rfl

theorem enqueue_stop_regrade (ix : Indexer) (call : Nat) :
    (ix.regrade severity).enqueue (.stop call) = (ix.enqueue (.stop call)).regrade severity := by
  have hfree : ((ix.regrade severity).running.isNone && (ix.regrade severity).queue.isEmpty) =
      (ix.running.isNone && ix.queue.isEmpty) := by
    simp only [regrade, Option.isNone_map]
  simp only [enqueue, hfree]
  split <;> rfl

/-- An action that asks for nothing new does the same at any severity. -/
theorem act_regrade (hix : ix.FirstOnly) (ha : a.isIncidental = true) :
    (ix.regrade severity).act a = (ix.act a).regrade severity := by
  cases a with
  | call c =>
      cases c with
      | stop =>
          exact enqueue_stop_regrade severity
            { ix with callCount := ix.callCount + 1 }.cancelActive _
      | _ => cases ha
  | subscribe _ => cases ha
  | revoke pass =>
      have hnotices : (ix.regrade severity).notices = ix.notices := rfl
      simp only [act, revoke, hnotices]
      split <;> rfl
  | advance =>
      simp only [act, advance?_regrade severity hix]
      cases ix.advance? <;> rfl
  | _ => rfl

theorem run_regrade (hix : ix.FirstOnly) {actions : List Action}
    (hactions : ∀ a ∈ actions, a.isIncidental = true) :
    (ix.regrade severity).run actions = (ix.run actions).regrade severity := by
  induction actions generalizing ix with
  | nil => rfl
  | cons a rest ih =>
      have ha := hactions a List.mem_cons_self
      rw [run_cons, run_cons, act_regrade severity hix ha]
      exact ih (event_firstOnly (ix.act_event a) ha hix)
        fun b hb => hactions b (List.mem_cons_of_mem _ hb)

/-- A new indexer that was asked for a project. -/
def established (config : Config) (m : Memory) (directory : Path) (request : Request) : Indexer :=
  (new config m).act (.call (.initial directory request))

theorem firstOnly_established (config : Config) (m : Memory) (directory : Path)
    (request : Request) :
    (established config m directory request).FirstOnly where
  unheard := rfl
  waiting := by
    intro job hjob
    cases hjob
  previous := by
    rintro _ ⟨⟩
    rfl
  untroubled := by
    rintro _ _ ⟨⟩ ⟨⟩ x hx
    cases hx
  taskless := by
    rintro _ _ _ ⟨⟩ ⟨⟩

theorem established_regrade (config : Config) (m : Memory) (directory : Path) (request : Request) :
    established { config with unresolvedImportSeverity := severity } m directory request =
      (established config m directory request).regrade severity :=
  rfl

theorem walked?_regrade (ix : Indexer) :
    (ix.regrade severity).walked? = ix.walked?.map fun x => (x.1, x.2.regrade severity) := by
  cases running : ix.running with
  | none => simp [walked?, regrade, running]
  | some r =>
      obtain ⟨call, project, plan, phase⟩ := r
      cases phase with
      | joining summary tasks => simp [walked?, regrade, running, Running.regrade]
      | walking w =>
          have hended : (w.regrade severity).ending? = w.ending? := by
            obtain ⟨index, once, reused, tokenized, made, stack, stage⟩ := w
            cases stage <;> rfl
          simp only [walked?, regrade, running, Option.map_some, Running.regrade, hended]
          split <;> rfl

end Regrade

/-- New indexers with equivalent settings stay alike. -/
theorem established_alike {c d : Config} (h : c.Equivalent d) (m : Memory) (directory : Path)
    (request : Request) (actions : List Action) :
    ∃ e, (established d m directory request).run actions =
      ((established c m directory request).run actions).under e := by
  have hnew : (new c m).config.Equivalent d := h
  obtain ⟨e, _, hrun⟩ := run_under hnew (.call (.initial directory request) :: actions)
  exact ⟨e, hrun⟩

/-- Settings between which the search does not change lead a new indexer to the same results.
Where the severity of imports that are not found is the same too, the indexers are alike in
everything but the settings, whatever happens to them. Where it is not, the first pass still comes
to the same outcome, and the index it computes and the one that is published differ only in the
severity of such imports. -/
theorem same_search_same_results (c d : Config) (m : Memory) (directory : Path) (request : Request)
    (actions : List Action) (h : c.searchChanged d = false) :
    let one := (established c m directory request).run actions
    let other := (established d m directory request).run actions
    let severity := d.unresolvedImportSeverity
    (c.unresolvedImportSeverity = severity → other = { one with config := other.config }) ∧
    ((∀ a ∈ actions, a.isIncidental = true) →
      other.outcomes = one.outcomes ∧
      other.walked? = one.walked?.map (fun x => (x.1, x.2.regrade severity)) ∧
      other.snapshot = ⟨one.snapshot.pass, one.snapshot.index.regrade severity⟩) := by
  have hsearch := Config.searchChanged_eq_false_iff.1 h
  intro one other severity
  constructor
  · intro hseverity
    obtain ⟨e, hrun⟩ := established_alike ⟨hsearch, hseverity⟩ m directory request actions
    have hother : other = one.under e := hrun
    rw [hother]
    rfl
  · intro hactions
    -- First the severity alone is changed, then the rest of the settings.
    have hregrade : (established { c with unresolvedImportSeverity := severity } m directory
        request).run actions = one.regrade severity := by
      rw [established_regrade]
      exact run_regrade severity (firstOnly_established c m directory request) hactions
    have hequivalent : Config.Equivalent { c with unresolvedImportSeverity := severity } d :=
      ⟨⟨hsearch.entryFile, hsearch.directories, hsearch.symbols⟩, rfl⟩
    obtain ⟨e, hrun⟩ := established_alike hequivalent m directory request actions
    have hother : other = (one.regrade severity).under e := hrun.trans (by rw [hregrade])
    rw [hother]
    exact ⟨rfl, walked?_regrade severity one, rfl⟩

/-- A project with an import that is found in a library directory and one that is found nowhere. -/
def halfFound : Memory :=
  ({ : Memory }.write ⟨"/p/main.asm"⟩ "#import \"a.asm\"\n#import \"b.asm\"\n").write
    ⟨"/p/lib/a.asm"⟩ ""

/-- A new indexer after the first pass over this project. -/
def halfIndexed (config : Config) : Indexer :=
  (established config halfFound ⟨"/p"⟩ {}).run (List.replicate 20 .advance)

/-- Settings with a library directory. -/
def plainSettings : Config := { libraryDirectories := [⟨"lib/"⟩] }

/-- The directory spelled otherwise, and another severity. -/
def strictSettings : Config :=
  { libraryDirectories := [⟨"lib//."⟩], unresolvedImportSeverity := .error }

/-- The same import is missed, as a warning and as an error. -/
theorem same_search_same_results_spellings :
    plainSettings.searchChanged strictSettings = false ∧
      (halfIndexed plainSettings).outcomes.map Prod.fst = [0] ∧
      (halfIndexed strictSettings).outcomes = (halfIndexed plainSettings).outcomes ∧
      (halfIndexed plainSettings).snapshot.index.diagnostics.map (fun x => x.2.severity) =
        [.warning] ∧
      (halfIndexed strictSettings).snapshot.index.diagnostics.map (fun x => x.2.severity) =
        [.error] ∧
      (halfIndexed strictSettings).snapshot =
        ⟨(halfIndexed plainSettings).snapshot.pass,
          (halfIndexed plainSettings).snapshot.index.regrade .error⟩ := by
  have hsearch : plainSettings.searchChanged strictSettings = false := by decide +kernel
  have hquiet : ∀ a ∈ List.replicate 20 Action.advance, a.isIncidental = true := by
    intro a ha
    rw [List.eq_of_mem_replicate ha]
    rfl
  have hresults := (same_search_same_results plainSettings strictSettings halfFound ⟨"/p"⟩ {}
    (List.replicate 20 .advance) hsearch).2 hquiet
  exact ⟨hsearch, by decide +kernel, hresults.1, by decide +kernel, by decide +kernel,
    hresults.2.2⟩

end Indexer

end AsmIndex

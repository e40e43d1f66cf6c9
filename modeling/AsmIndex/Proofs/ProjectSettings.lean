import AsmIndex.Proofs.RunningWalk

/-!
The project and the settings of passes. A call to parse works with the project of its moment, but
the settings are read when the turn of its pass comes. Whatever changes the project or how imports
are found asks for a new pass at once, and that cancels all passes that wait; so what a pass works
with belongs together.
-/

namespace AsmIndex

namespace Config

/-- Two settings agree in what decides how imports are found. -/
structure SameSearch (c d : Config) : Prop where
  entryFile : c.entryFile = d.entryFile
  directories : c.libraryDirectories.map Path.components = d.libraryDirectories.map Path.components
  symbols : c.initialSymbols = d.initialSymbols

theorem SameSearch.refl (c : Config) : c.SameSearch c := ⟨rfl, rfl, rfl⟩

theorem SameSearch.trans {c d e : Config} (h : c.SameSearch d) (h' : d.SameSearch e) :
    c.SameSearch e :=
  ⟨h.entryFile.trans h'.entryFile, h.directories.trans h'.directories,
    h.symbols.trans h'.symbols⟩

theorem searchChanged_eq_false_iff {c d : Config} :
    c.searchChanged d = false ↔ c.SameSearch d := by
  simp only [searchChanged, Bool.or_eq_false_iff, bne_eq_false_iff_eq]
  constructor
  · rintro ⟨⟨hentry, hdirectories⟩, hsymbols⟩
    exact ⟨hentry, hdirectories, hsymbols⟩
  · intro h
    exact ⟨⟨h.entryFile, h.directories⟩, h.symbols⟩

end Config

namespace Indexer

/-- The project is the one of its directory under the present settings, and it was parsed. A
waiting pass that is not cancelled is for this project and by the last request. -/
structure Aligned (ix : Indexer) : Prop where
  project : ∀ {project}, ix.project = some project →
    project = Project.of project.directory ix.config.entryFile
  requested : ∀ {project}, ix.project = some project →
    ∃ request, ix.lastRequest = some request
  waiting : ∀ {call id project request}, .pass call id project request ∈ ix.queue →
    ix.isCancelled id = false → ix.project = some project ∧ ix.lastRequest = some request

/-- No pass is asked for. The project and the last request stay, and once there is a project, so
does what decides how imports are found; no pass is new among those that wait, and no cancelled
one is revived. -/
structure SettingsStay (ix ix' : Indexer) : Prop where
  project : ix'.project = ix.project
  last : ix'.lastRequest = ix.lastRequest
  search : ∀ {project}, ix.project = some project → ix.config.SameSearch ix'.config
  queue : ∀ {call id project request}, .pass call id project request ∈ ix'.queue →
    .pass call id project request ∈ ix.queue
  cancelled : ix.cancelled ⊆ ix'.cancelled

section Aligned

variable {ix ix' : Indexer} {a : Action}

theorem SettingsStay.isCancelled (h : SettingsStay ix ix') {id : Nat}
    (hvalid : ix'.isCancelled id = false) : ix.isCancelled id = false := by
  rw [isCancelled_eq_false_iff] at hvalid ⊢
  exact fun hid => hvalid (h.cancelled hid)

theorem waits_settingsStay (h : Waits ix ix') : SettingsStay ix ix' := by
  obtain ⟨_, hconfig, hproject, hlast⟩ := waits_settings h
  obtain ⟨_, _, _, _, hcancelled⟩ := waits_frame h
  refine ⟨hproject, hlast, fun _ => hconfig ▸ .refl _,
    fun hmem => (waits_queue h).1.subset hmem, ?_⟩
  rw [hcancelled]
  exact List.Subset.refl _

theorem Aligned.project_eq_none (hix : ix.Aligned) (hnone : ix.lastRequest = none) :
    ix.project = none := by
  refine Option.eq_none_iff_forall_ne_some.2 fun project established => ?_
  obtain ⟨request, hlast⟩ := hix.requested established
  cases hnone.symm.trans hlast

/-- What an action does to the settings: it asks for a pass, or they stay. -/
theorem event_settings (h : Event ix a ix') (hix : ix.Aligned) :
    (∃ c config project request, a = .call c ∧ Asks ix c config project request ∧
        Waits (ix.asked config project request) ix') ∨
      SettingsStay ix ix' := by
  have hover : ∀ {r outcome}, SettingsStay ix (ix.endPass r outcome) :=
    ⟨rfl, rfl, fun _ => .refl _, id, List.Subset.refl _⟩
  cases h with
  | ask asks waits => exact .inl ⟨_, _, _, _, rfl, asks, waits⟩
  | refuse none _ =>
      refine .inr ⟨rfl, rfl, fun established => ?_, id, List.Subset.refl _⟩
      cases none.symm.trans established
  | configure quiet =>
      rcases quiet with ⟨hsame, rfl⟩ | ⟨hnone, rfl⟩
      · exact .inr ⟨rfl, rfl, fun _ => Config.searchChanged_eq_false_iff.1 hsame, id,
          List.Subset.refl _⟩
      · -- Without a request there is no project either.
        have hproject := hix.project_eq_none hnone
        refine .inr ⟨?_, rfl, fun established => ?_, id, List.Subset.refl _⟩
        · show ix.project.map _ = ix.project
          rw [hproject]
          rfl
        · cases hproject.symm.trans established
  | stop waits =>
      have hstay := waits_settingsStay waits
      refine .inr ⟨hstay.project, hstay.last, fun h => hstay.search h, fun hmem => ?_, ?_⟩
      · simpa [stopping] using hstay.queue hmem
      · exact List.Subset.trans (List.subset_append_right _ _) hstay.cancelled
  | turn h => exact .inr (waits_settingsStay (.inr h))
  | revoke _ => exact .inr ⟨rfl, rfl, fun _ => .refl _, id, List.subset_cons_self _ _⟩
  | publish _ _ _ _ _ =>
      refine .inr ⟨rfl, rfl, fun _ => .refl _, id, ?_⟩
      rw [publish_eq]
      dsimp only
      split <;> simp
  | abandon _ _ _ _ => exact .inr hover
  | fail _ _ _ => exact .inr hover
  | unchanged _ _ _ _ _ => exact .inr hover
  | join _ _ => exact .inr hover
  | _ => exact .inr ⟨rfl, rfl, fun _ => .refl _, id, List.Subset.refl _⟩

theorem SettingsStay.aligned (h : SettingsStay ix ix') (hix : ix.Aligned) : ix'.Aligned where
  project := by
    intro project established
    rw [h.project] at established
    rw [← (h.search established).entryFile]
    exact hix.project established
  requested := by
    intro project established
    rw [h.last]
    exact hix.requested (h.project ▸ established)
  waiting := by
    intro call id project request hmem hvalid
    rw [h.project, h.last]
    exact hix.waiting (h.queue hmem) (h.isCancelled hvalid)

theorem Asks.project_of {c : Call} {config : Config} {project : Project} {request : Request}
    (h : Asks ix c config project request) (hix : ix.Aligned) :
    project = Project.of project.directory config.entryFile := by
  cases h with
  | initial => rfl
  | parse _ established => exact hix.project established
  | setConfig => rfl

theorem aligned_asked (hordered : ix.ledger.Ordered) {config : Config} {project : Project}
    {request : Request} (hproject : project = Project.of project.directory config.entryFile) :
    (ix.asked config project request).Aligned where
  project := by
    rintro _ ⟨⟩
    exact hproject
  requested := by
    rintro _ ⟨⟩
    exact ⟨request, rfl⟩
  waiting := by
    intro call id project' request' hmem hvalid
    rcases List.mem_append.1 hmem with hold | hnew
    · -- A new request cancels whatever waited.
      exact absurd (cancelled_of_waiting hordered hold) (isCancelled_eq_false_iff.1 hvalid)
    · cases List.mem_singleton.1 hnew
      exact ⟨rfl, rfl⟩

theorem event_aligned (h : Event ix a ix') (hordered : ix.ledger.Ordered) (hix : ix.Aligned) :
    ix'.Aligned := by
  rcases event_settings h hix with ⟨c, config, project, request, rfl, asks, waits⟩ | hstay
  · exact (waits_settingsStay waits).aligned (aligned_asked hordered (asks.project_of hix))
  · exact hstay.aligned hix

theorem aligned_new (config : Config) (files : Memory) : (new config files).Aligned :=
  ⟨by simp [new], by simp [new], by simp [new]⟩

end Aligned

/-- The action establishes no project elsewhere than in `Home`. -/
def Action.StaysIn (Home : Path → Prop) : Action → Prop
  | .call (.initial directory _) => Home directory.normalized
  | _ => True

/-- The settings belong together, and the projects of the indexer and of the running pass are in
`Home`. -/
structure Located (Home : Path → Prop) (ix : Indexer) : Prop where
  aligned : ix.Aligned
  home : ∀ {project}, ix.project = some project → Home project.directory
  running : ∀ {r}, ix.running = some r → Home r.plan.directory

section Located

variable {Home : Path → Prop} {ix ix' : Indexer} {a : Action}

theorem Located.waiting (hix : ix.Located Home) {call id : Nat} {project : Project}
    {request : Request} (queued : .pass call id project request ∈ ix.queue)
    (hvalid : ix.isCancelled id = false) :
    ix.project = some project ∧ ix.lastRequest = some request :=
  hix.aligned.waiting queued hvalid

theorem Asks.home {c : Call} {config : Config} {project : Project} {request : Request}
    (h : Asks ix c config project request) (hstays : (Action.call c).StaysIn Home)
    (hix : ix.Located Home) : Home project.directory := by
  cases h with
  | initial directory request => exact hstays
  | parse request established => exact hix.home established
  | @setConfig _ project _ changed established last =>
      show Home project.directory
      exact hix.home established

theorem event_home (h : Event ix a ix') (hstays : a.StaysIn Home) (hix : ix.Located Home)
    {project : Project} (established : ix'.project = some project) : Home project.directory := by
  rcases event_settings h hix.aligned with
    ⟨c, config, project', request, rfl, asks, waits⟩ | hstay
  · rw [(waits_settings waits).2.2.1] at established
    cases established
    exact asks.home hstays hix
  · exact hix.home (hstay.project ▸ established)

/-- What a pass gets its turn with, after what else the action did. -/
theorem Located.begun (hix : ix.Located Home) (hordered : ix.ledger.Ordered)
    (hstays : a.StaysIn Home) {ix₁ : Indexer} (reached : ix₁ = ix ∨ Event ix a ix₁)
    (turn : Turn ix₁ ix') {r : Running} (running : ix'.running = some r) :
    ∃ call id request, Home r.project.directory ∧
      r.project = Project.of r.project.directory ix₁.config.entryFile ∧
      r = ix₁.begun call id r.project request := by
  obtain ⟨call, id, project, request, hmem, hvalid, rfl⟩ := turn_begun turn running
  have hreached : ix₁.Aligned ∧ ∀ {project}, ix₁.project = some project →
      Home project.directory := by
    rcases reached with rfl | hevent
    · exact ⟨hix.aligned, hix.home⟩
    · exact ⟨event_aligned hevent hordered hix.aligned, event_home hevent hstays hix⟩
  obtain ⟨hproject, _⟩ := hreached.1.waiting hmem hvalid
  exact ⟨call, id, request, hreached.2 hproject, hreached.1.project hproject, rfl⟩

theorem event_located (h : Event ix a ix') (hstays : a.StaysIn Home) (hordered : ix.ledger.Ordered)
    (hix : ix.Located Home) : ix'.Located Home where
  aligned := event_aligned h hordered hix.aligned
  home := fun established => event_home h hstays hix established
  running := by
    intro r running
    rcases event_running h running with
      ⟨ix₁, reached, turn⟩ | ⟨r₀, running₀, _, hplan⟩
    · obtain ⟨_, _, _, hhome, _, hbegun⟩ := hix.begun hordered hstays reached turn running
      rw [hbegun]
      exact hhome
    · rw [← hplan]
      exact hix.running running₀

theorem located_new (Home : Path → Prop) (config : Config) (files : Memory) :
    (new config files).Located Home :=
  ⟨aligned_new config files, by simp [new], by simp [new]⟩

end Located

/-- The request of a call to parse. -/
def Action.request? : Action → Option Request
  | .call (.initial _ request) => some request
  | .call (.parse request) => some request
  | _ => none

/-- The request of the last call to parse. -/
def lastRequested (actions : List Action) : Option Request :=
  (actions.filterMap Action.request?).getLast?

theorem lastRequested_concat (actions : List Action) (a : Action) :
    lastRequested (actions ++ [a]) = a.request?.or (lastRequested actions) :=
  getLast?_filterMap_concat _ _ _

/-- Among `actions` a call, the one with the number `k`, asked for a pass over `project` by
`request`, and what then decided how imports are found agrees with `config`. -/
def AskedBy (start : Indexer) (actions : List Action) (k : Nat) (project : Project)
    (request : Request) (config : Config) : Prop :=
  ∃ before c after settings, actions = before ++ .call c :: after ∧
    (start.run before).callCount = k ∧ Asks (start.run before) c settings project request ∧
    settings.SameSearch config

/-- What an indexer remembers of the calls of a run: the last request is that of the last call to
parse, and each waiting pass that is not cancelled was asked for under the settings of now. -/
structure Recalls (start : Indexer) (actions : List Action) (ix : Indexer) : Prop where
  last : ∀ {project}, ix.project = some project →
    lastRequested actions = ix.lastRequest
  waiting : ∀ {call id project request}, .pass call id project request ∈ ix.queue →
    ix.isCancelled id = false → AskedBy start actions call project request ix.config

section Recalls

variable {start ix ix' : Indexer} {actions : List Action} {a : Action}

theorem AskedBy.mono {k : Nat} {project : Project} {request : Request} {config config' : Config}
    (h : AskedBy start actions k project request config) (hsame : config.SameSearch config')
    (a : Action) : AskedBy start (actions ++ [a]) k project request config' := by
  obtain ⟨before, c, after, settings, rfl, hcall, hasks, hsettings⟩ := h
  exact ⟨before, c, after ++ [a], settings, by simp, hcall, hasks, hsettings.trans hsame⟩

/-- A call to parse leaves its request as the last one, unless there is no project. -/
theorem event_request (h : Event ix a ix') {project : Project} {request : Request}
    (hrequest : a.request? = some request) (established : ix.project = some project) :
    ix'.lastRequest = some request := by
  cases h with
  | ask asks waits =>
      rw [(waits_settings waits).2.2.2]
      cases asks with
      | setConfig => cases hrequest
      | _ => exact hrequest
  | refuse none kind => cases none.symm.trans established
  | files change => cases change <;> cases hrequest
  | idle kind => rcases kind with rfl | ⟨_, rfl⟩ <;> cases hrequest
  | _ => cases hrequest

theorem Asks.last {c : Call} {config : Config} {project : Project} {request : Request}
    (h : Asks ix c config project request) (hix : Recalls start actions ix) :
    lastRequested (actions ++ [.call c]) = some request := by
  rw [lastRequested_concat]
  cases h with
  | initial => rfl
  | parse => rfl
  | setConfig _ established last => exact (hix.last established).trans last

theorem recalls_asked {c : Call} {config : Config} {project : Project} {request : Request}
    (asks : Asks (start.run actions) c config project request)
    (hordered : (start.run actions).ledger.Ordered)
    (hix : Recalls start actions (start.run actions)) :
    Recalls start (actions ++ [.call c]) ((start.run actions).asked config project request) where
  last := fun _ => asks.last hix
  waiting := by
    intro call id project' request' hmem hvalid
    rcases List.mem_append.1 hmem with hold | hnew
    · exact absurd (cancelled_of_waiting hordered hold) (isCancelled_eq_false_iff.1 hvalid)
    · cases List.mem_singleton.1 hnew
      exact ⟨actions, c, [], config, rfl, rfl, asks, .refl _⟩

theorem waits_recalls (h : Waits ix ix') (hix : Recalls start actions ix) :
    Recalls start actions ix' := by
  have hstay := waits_settingsStay h
  refine ⟨fun established => ?_, fun hmem hvalid => ?_⟩
  · rw [hstay.last]
    exact hix.last (hstay.project ▸ established)
  · rw [(waits_settings h).2.1]
    exact hix.waiting (hstay.queue hmem) (hstay.isCancelled hvalid)

theorem event_recalls (h : Event (start.run actions) a ix')
    (hordered : (start.run actions).ledger.Ordered) (haligned : (start.run actions).Aligned)
    (hix : Recalls start actions (start.run actions)) : Recalls start (actions ++ [a]) ix' := by
  rcases event_settings h haligned with ⟨c, config, project, request, rfl, asks, waits⟩ | hstay
  · exact waits_recalls waits (recalls_asked asks hordered hix)
  · refine ⟨fun established => ?_, fun hmem hvalid => ?_⟩
    · rw [hstay.project] at established
      rw [lastRequested_concat]
      cases hrequest : a.request? with
      | none => exact (hix.last established).trans hstay.last.symm
      | some request => exact (event_request h hrequest established).symm
    · have hold := hstay.queue hmem
      have hvalid' := hstay.isCancelled hvalid
      exact (hix.waiting hold hvalid').mono (hstay.search (haligned.waiting hold hvalid').1) a

end Recalls

/-- The settings of every run belong together. -/
theorem aligned_run (config : Config) (files : Memory) (actions : List Action) :
    ((new config files).run actions).Aligned ∧
      Recalls (new config files) actions ((new config files).run actions) := by
  induction actions using List.reverseRecOn with
  | nil =>
      rw [run_nil]
      exact ⟨aligned_new config files, by simp [new], by simp [new]⟩
  | append_singleton actions a ih =>
      have hordered := (run_sound (sound_new config files) actions).ordered
      have hevent := act_event ((new config files).run actions) a
      rw [run_append, run_cons, run_nil]
      exact ⟨event_aligned hevent hordered ih.1, event_recalls hevent hordered ih.1 ih.2⟩

/-- What a pass that just got its turn works with: the directory and the entry file of its
project, the search directories, symbols and severity of its request and of `config`, and the
buffers of its request. -/
structure WorksWith (r : Running) (config : Config) (request : Request) : Prop where
  directory : r.plan.directory = r.project.directory
  libraries : r.plan.libraries = Path.absolutize r.project.directory
    (request.libraries ++ config.libraryDirectories)
  severity : r.plan.severity = config.unresolvedImportSeverity
  live : r.plan.live = request.live
  phase : r.phase = .walking (Walk.start r.project.entry
    (request.symbols.union (Symbols.ofList config.initialSymbols)))

/-- The pass asked for last is that of the call with the number `k`, over `project` and by
`request`. It is not cancelled, and it waits for its turn or has just got it. -/
structure Launched (ix : Indexer) (k : Nat) (project : Project) (request : Request) : Prop where
  established : ix.project = some project
  requested : ix.lastRequest = some request
  active : ix.active = some ix.passCount
  valid : ix.isCancelled ix.passCount = false
  course : .pass k ix.passCount project request ∈ ix.queue ∨
    ∃ r, ix.running = some r ∧ r.call = k ∧ r.plan.pass = ix.passCount ∧
    r.project = project ∧
      WorksWith r ix.config request

section Turns

variable {ix ix' : Indexer} {a : Action}

theorem begun_worksWith (ix : Indexer) (call id : Nat) (project : Project) (request : Request) :
    WorksWith (ix.begun call id project request) ix.config request :=
  ⟨rfl, rfl, rfl, rfl, rfl⟩

theorem launched_asked (hordered : ix.ledger.Ordered) {config : Config} {project : Project}
    {request : Request} (waits : Waits (ix.asked config project request) ix') :
    ix'.Launched ix.callCount project request := by
  obtain ⟨_, hconfig, hproject, hlast⟩ := waits_settings waits
  obtain ⟨_, _, hcount, hactive, hcancelled⟩ := waits_frame waits
  have hcount' : ix'.passCount = ix.passCount + 1 := hcount
  have hvalid : (ix.asked config project request).isCancelled (ix.passCount + 1) = false :=
    isCancelled_eq_false_iff.2 (not_cancelled_asked hordered config project request)
  refine ⟨hproject, hlast, ?_, ?_, ?_⟩
  · rw [hactive, hcount]
    rfl
  · rw [hcount']
    simpa only [isCancelled, hcancelled] using hvalid
  · have hqueued : .pass ix.callCount (ix.passCount + 1) project request ∈
        (ix.asked config project request).queue :=
      List.mem_append_right _ (List.mem_singleton_self _)
    rw [hcount']
    rcases waits_queued waits hqueued with hwaiting | ⟨hcancel, _⟩ | hrunning
    · exact .inl hwaiting
    · cases hvalid.symm.trans hcancel
    · exact .inr ⟨_, hrunning, rfl, rfl, rfl, begun_worksWith _ _ _ _ _⟩

/-- A pass that gets its turn is for the present project and by a request that was made under the
settings of now. -/
theorem Begins.coherent {start : Indexer} {actions : List Action} {r : Running}
    (h : (start.run actions).Begins a r) (hordered : (start.run actions).ledger.Ordered)
    (haligned : (start.run actions).Aligned)
    (hrecalls : Recalls start actions (start.run actions)) :
    ∃ request, AskedBy start (actions ++ [a]) r.call r.project request
        ((start.run actions).act a).config ∧
      ((start.run actions).act a).project = some r.project ∧
      WorksWith r ((start.run actions).act a).config request := by
  obtain ⟨ix₁, call, id, project, request, reached, turn, hmem, hvalid, rfl⟩ := h.begun
  obtain ⟨_, hconfig, hproject, _⟩ := waits_settings (.inr turn)
  rw [hconfig, hproject]
  refine ⟨request, ?_, ?_, begun_worksWith ix₁ call id project request⟩
  · rcases reached with rfl | hevent
    · exact (hrecalls.waiting hmem hvalid).mono (.refl _) a
    · exact (event_recalls hevent hordered haligned hrecalls).waiting hmem hvalid
  · rcases reached with rfl | hevent
    · exact (haligned.waiting hmem hvalid).1
    · exact ((event_aligned hevent hordered haligned).waiting hmem hvalid).1

/-- New settings that change how imports are found make the last request once more. -/
theorem launched_setConfig (hordered : ix.ledger.Ordered) {config : Config} {project : Project}
    {request : Request} (established : ix.project = some project)
    (last : ix.lastRequest = some request) (changed : ix.config.searchChanged config = true) :
    (ix.act (.call (.setConfig config))).config = config ∧
      (ix.act (.call (.setConfig config))).passCount = ix.passCount + 1 ∧
      (ix.act (.call (.setConfig config))).Launched ix.callCount
        (Project.of project.directory config.entryFile) request := by
  have hwaits : Waits (ix.asked config (Project.of project.directory config.entryFile) request)
      (ix.act (.call (.setConfig config))) := setConfig_waits established last changed
  refine ⟨(waits_settings hwaits).2.1, (waits_frame hwaits).2.2.1,
    launched_asked hordered hwaits⟩

end Turns

/-- Take any run of a new indexer. The entry file of its project is always the one that the
settings name in the directory of the project. Whenever a pass gets its turn, the project that its
call saw is the present one, and what the call saw of the settings is what the pass reads of them
now. New settings that change how imports are found always start a pass, which uses the buffers,
symbols and directories of the last call to parse. -/
theorem settings_belong_together (config : Config) (files : Memory) (actions : List Action) :
    let start := new config files
    let ix := start.run actions
    (∀ project, ix.project = some project →
      project.entry = (project.directory.join ⟨ix.config.entryFile⟩).normal?.getD
        (project.directory.join ⟨ix.config.entryFile⟩)) ∧
    (∀ a r, ix.Begins a r →
      ∃ request, AskedBy start (actions ++ [a]) r.call r.project request (ix.act a).config ∧
        (ix.act a).project = some r.project ∧ WorksWith r (ix.act a).config request) ∧
    ∀ project settings, ix.project = some project → ix.config.searchChanged settings = true →
      ∃ request, lastRequested actions = some request ∧
        (ix.act (.call (.setConfig settings))).config = settings ∧
        (ix.act (.call (.setConfig settings))).passCount = ix.passCount + 1 ∧
        (ix.act (.call (.setConfig settings))).Launched ix.callCount
          (Project.of project.directory settings.entryFile) request := by
  intro start ix
  obtain ⟨haligned, hrecalls⟩ := aligned_run config files actions
  have hordered := (run_sound (sound_new config files) actions).ordered
  refine ⟨?_, ?_, ?_⟩
  · intro project established
    exact congrArg Project.entry (haligned.project established)
  · intro a r hbegins
    exact hbegins.coherent hordered haligned hrecalls
  · intro project settings established changed
    obtain ⟨request, hlast⟩ := haligned.requested established
    exact ⟨request, (hrecalls.last established).trans hlast,
      launched_setConfig hordered established hlast changed⟩

end Indexer

end AsmIndex

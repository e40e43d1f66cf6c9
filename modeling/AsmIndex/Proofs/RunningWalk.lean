import AsmIndex.Proofs.Supersession
import AsmIndex.Proofs.WalkFrames

/-!
The walk of the running pass. With each event it starts, stays as it is or goes one step on. So
what walks keep true of variants holds in every run, also while files change, and the walk of a
pass during which no file changes is a run of steps over one view of the files.
-/

namespace AsmIndex

/-- One change of files, or none. -/
def Memory.Later (m m' : Memory) : Prop := m.SameFiles m' ∨ ∃ a, Indexer.FileChange m a m'

namespace Indexer

theorem waits_settings {ix ix' : Indexer} (h : Waits ix ix') :
    ix'.files = ix.files ∧ ix'.config = ix.config ∧ ix'.project = ix.project ∧
      ix'.lastRequest = ix.lastRequest := by
  rcases h with rfl | h
  · simp
  · cases h <;> simp [report]

theorem event_files {ix ix' : Indexer} {a : Action} (h : Event ix a ix') :
    ix.files.SameFiles ix'.files ∨ FileChange ix.files a ix'.files := by
  cases h with
  | ask asks waits | stop waits =>
      obtain ⟨hfiles, _⟩ := waits_settings waits
      rw [hfiles]
      exact .inl (.refl _)
  | turn h =>
      obtain ⟨hfiles, _⟩ := waits_settings (.inr h)
      rw [hfiles]
      exact .inl (.refl _)
  | files change => exact .inr change
  | walk _ _ _ _ => exact .inl (Walk.sameFiles_counted _ _)
  | work _ _ same _ => exact .inl same
  | _ => exact .inl (.refl _)

theorem turn_begun {ix ix' : Indexer} (h : Turn ix ix') {r : Running}
    (running : ix'.running = some r) :
    ∃ call id project request, .pass call id project request ∈ ix.queue ∧
      ix.isCancelled id = false ∧ r = ix.begun call id project request := by
  cases h with
  | release free _ => simp [report, free] at running
  | dismiss free _ _ => simp [report, free] at running
  | start free next valid =>
      cases running
      exact ⟨_, _, _, _, by simp [next], valid, rfl⟩

/-- How the walk of the running pass came about. -/
inductive WalkCause (ix : Indexer) (a : Action) (ix' : Indexer) (r : Running) (w : Walk) : Prop
  /-- The pass got its turn, after what else the action did. -/
  | started {ix₁} (reached : ix₁ = ix ∨ Event ix a ix₁) (turn : Turn ix₁ ix')
  | stayed (running : ix.running = some r)
  | stepped {r₀ w₀ cancelled} (running : ix.running = some r₀)
      (phase : r₀.phase = .walking w₀)
      (same : r = { r₀ with phase := .walking w })
      (step : w = w₀.step r₀.plan ix.files.view cancelled)

theorem event_walking {ix ix' : Indexer} {a : Action} (h : Event ix a ix') {r : Running} {w : Walk}
    (running : ix'.running = some r) (phase : r.phase = .walking w) : WalkCause ix a ix' r w := by
  cases h with
  | ask asks waits =>
      rcases waits with rfl | turn
      · exact .stayed running
      · exact .started (.inr (.ask asks (.inl rfl))) turn
  | stop waits =>
      rcases waits with rfl | turn
      · exact .stayed running
      · exact .started (.inr (.stop (.inl rfl))) turn
  | turn h => exact .started (.inl rfl) h
  | walk running' phase' _ _ =>
      cases running
      cases phase
      exact .stepped running' phase' rfl rfl
  | abandon | fail | unchanged | join => cases running
  | publish | work =>
      cases running
      cases phase
  | _ => exact .stayed running

/-- The published variants and those of the running walk have a property that depends on the
files. -/
structure Holding (Dated : Memory → Path → Symbols → Nat → Prop)
    (P : Memory → Path → Symbols → Variant → Prop) (ix : Indexer) : Prop where
  snapshot : ∀ p s v, ix.snapshot.index.get? p s = some v → P ix.files p s v
  coherent : ∀ {r w}, ix.running = some r → r.phase = .walking w → w.Coherent r.plan
  holds : ∀ {r w}, ix.running = some r → r.phase = .walking w →
    w.Holds (Dated ix.files) (P ix.files)

/-- A property of variants that no change of files takes away. -/
structure Lasting (Dated : Memory → Path → Symbols → Nat → Prop)
    (P : Memory → Path → Symbols → Variant → Prop) : Prop where
  variant : ∀ {m m' p s v}, m.Later m' → P m p s v → P m' p s v
  date : ∀ {m m' p s t}, m.Later m' → Dated m p s t → Dated m' p s t

section Holding

variable {Dated : Memory → Path → Symbols → Nat → Prop}
  {P : Memory → Path → Symbols → Variant → Prop} {ix ix' : Indexer} {a : Action}

theorem Lasting.holds (hP : Lasting Dated P) {m m' : Memory} (hlater : m.Later m') {w : Walk}
    (hw : w.Holds (Dated m) (P m)) : w.Holds (Dated m') (P m') :=
  ⟨fun p s v hv => hP.variant hlater (hw.index p s v hv), fun hstage =>
    hP.date hlater (hw.dated hstage)⟩

theorem event_holding (h : Event ix a ix') (hsound : ix.Sound) (hP : Lasting Dated P)
    (hupholds : ∀ {r w}, ix.running = some r → r.phase = .walking w →
      (∀ p s v, r.plan.previous.get? p s = some v → P ix.files p s v) →
      Walk.Upholds r.plan ix.files.view (Dated ix.files) (P ix.files))
    (hix : Holding Dated P ix) : Holding Dated P ix' := by
  have hlater : ix.files.Later ix'.files := by
    rcases event_files h with hsame | hchange
    · exact .inl hsame
    · exact .inr ⟨a, hchange⟩
  refine ⟨?_, ?_, ?_⟩
  · intro p s v hv
    refine hP.variant hlater ?_
    rcases event_silent_or_publish h with
      ⟨hsnapshot, _⟩ | ⟨r, w, running, phase, _, _, _, rfl⟩
    · exact hix.snapshot p s v (hsnapshot ▸ hv)
    · exact (hix.holds running phase).index p s v hv
  · intro r w running phase
    cases event_walking h running phase with
    | started reached turn =>
        obtain ⟨_, _, _, _, _, _, rfl⟩ := turn_begun turn running
        cases phase
        exact Walk.coherent_start _ _ _
    | stayed running' => exact hix.coherent running' phase
    | stepped running' phase' same step =>
        have hcoherent := hix.coherent running' phase'
        rw [same, step]
        exact Walk.move_coherent (Walk.step_move _ _ _ _) hcoherent
  · intro r w running phase
    refine hP.holds hlater ?_
    cases event_walking h running phase with
    | started reached turn =>
        obtain ⟨_, _, _, _, _, _, rfl⟩ := turn_begun turn running
        cases phase
        exact Walk.holds_start _ _
    | stayed running' => exact hix.holds running' phase
    | stepped running' phase' same step =>
        rw [step]
        refine Walk.move_holds (Walk.step_move _ _ _ _) ?_ (hix.coherent running' phase')
          (hix.holds running' phase')
        refine hupholds running' phase' ?_
        rw [hsound.grounded.previous running' phase']
        exact hix.snapshot

end Holding

/-- What every pass keeps true of variants, whatever the files are, holds of all that an indexer
has. -/
theorem holding_run {P : Path → Symbols → Variant → Prop}
    (hP : ∀ {plan view}, (∀ p s v, plan.previous.get? p s = some v → P p s v) →
      Walk.Upholds plan view (fun _ _ _ => True) P)
    (config : Config) (files : Memory) (actions : List Action) :
    Holding (fun _ _ _ _ => True) (fun _ => P) ((new config files).run actions) := by
  have hrun := run_preserves (P := fun ix => ix.Sound ∧
    Holding (fun _ _ _ _ => True) (fun _ => P) ix) ?_ ⟨sound_new config files, ?_⟩ actions
  · exact hrun.2
  · rintro ix ix' a hevent ⟨hsound, hix⟩
    refine ⟨event_sound hevent hsound, event_holding hevent hsound ?_ ?_ hix⟩
    · exact ⟨fun _ hv => hv, fun _ _ => trivial⟩
    · exact fun _ _ hprevious => hP hprevious
  · refine ⟨?_, by simp [new], by simp [new]⟩
    intro p s v hv
    simp [new] at hv

/-- A running pass got its turn with this action, or ran before for the same call and by the same
plan. -/
theorem event_running {ix ix' : Indexer} {a : Action} (h : Event ix a ix') {r : Running}
    (running : ix'.running = some r) :
    (∃ ix₁, (ix₁ = ix ∨ Event ix a ix₁) ∧ Turn ix₁ ix') ∨
      ∃ r₀, ix.running = some r₀ ∧ r₀.call = r.call ∧ r₀.plan = r.plan := by
  cases h with
  | ask asks waits =>
      rcases waits with rfl | turn
      · exact .inr ⟨r, running, rfl, rfl⟩
      · exact .inl ⟨_, .inr (.ask asks (.inl rfl)), turn⟩
  | stop waits =>
      rcases waits with rfl | turn
      · exact .inr ⟨r, running, rfl, rfl⟩
      · exact .inl ⟨_, .inr (.stop (.inl rfl)), turn⟩
  | turn h => exact .inl ⟨ix, .inl rfl, h⟩
  | walk running' | publish running' | work running' =>
      cases running
      exact .inr ⟨_, running', rfl, rfl⟩
  | abandon | fail | unchanged | join => cases running
  | _ => exact .inr ⟨r, running, rfl, rfl⟩

theorem waits_queue {ix ix' : Indexer} (h : Waits ix ix') :
    ix'.queue.Sublist ix.queue ∧ ix'.callCount = ix.callCount := by
  rcases h with rfl | h
  · simp
  · cases h with
    | release _ next => simp [report, next]
    | dismiss _ next _ => simp [report, next]
    | start _ next _ => simp [next]

theorem waits_queued {ix ix' : Indexer} (h : Waits ix ix') {k j : Nat} {project : Project}
    {request : Request} (queued : .pass k j project request ∈ ix.queue) :
    .pass k j project request ∈ ix'.queue ∨
      (ix.isCancelled j = true ∧ (k, .cancelled) ∈ ix'.outcomes) ∨
      ix'.running = some (ix'.begun k j project request) := by
  rcases h with rfl | h
  · exact .inl queued
  · cases h with
    | release free next =>
        rw [next, List.mem_cons] at queued
        exact .inl (queued.resolve_left (by simp))
    | dismiss free next cancelled =>
        rw [next, List.mem_cons] at queued
        rcases queued with heq | hrest
        · cases heq
          exact .inr (.inl ⟨cancelled, List.mem_append_right _ (List.mem_singleton_self _)⟩)
        · exact .inl hrest
    | start free next =>
        rw [next, List.mem_cons] at queued
        rcases queued with heq | hrest
        · cases heq
          exact .inr (.inr rfl)
        · exact .inl hrest

/-- Only a new call comes to those that wait. -/
theorem event_queue {ix ix' : Indexer} {a : Action} (h : Event ix a ix') {k : Nat}
    (hk : k < ix.callCount) (hgone : k ∉ ix.queue.map Job.call) :
    k < ix'.callCount ∧ k ∉ ix'.queue.map Job.call := by
  have hnew : k ∉ (ix.queue.map Job.call) ++ [ix.callCount] := by
    simp only [List.mem_append, List.mem_singleton, not_or]
    exact ⟨hgone, by omega⟩
  cases h with
  | ask asks waits =>
      obtain ⟨hsub, hcount⟩ := waits_queue waits
      rw [hcount]
      refine ⟨Nat.lt_succ_of_lt hk, fun hmem => hnew ?_⟩
      simpa [asked, askedJob, Job.call] using (hsub.map Job.call).subset hmem
  | stop waits =>
      obtain ⟨hsub, hcount⟩ := waits_queue waits
      rw [hcount]
      refine ⟨Nat.lt_succ_of_lt hk, fun hmem => hnew ?_⟩
      simpa [stopping, Job.call] using (hsub.map Job.call).subset hmem
  | turn h =>
      obtain ⟨hsub, hcount⟩ := waits_queue (.inr h)
      rw [hcount]
      exact ⟨hk, fun hmem => hgone ((hsub.map Job.call).subset hmem)⟩
  | refuse _ _ => exact ⟨Nat.lt_succ_of_lt hk, hgone⟩
  | configure _ => exact ⟨Nat.lt_succ_of_lt hk, hgone⟩
  | _ => exact ⟨hk, hgone⟩

/-- An action that changes files or what can be read of them. -/
def Action.changesFiles : Action → Bool
  | .write _ _ => true
  | .remove _ => true
  | .failReads _ => true
  | _ => false

theorem sameFiles_of_event {ix ix' : Indexer} {a : Action} (h : Event ix a ix')
    (ha : a.changesFiles = false) : ix.files.SameFiles ix'.files := by
  rcases event_files h with hsame | hchange
  · exact hsame
  · generalize ix'.files = m at hchange
    cases hchange with
    | gate path => exact ⟨rfl, rfl, rfl⟩
    | openGate => exact ⟨rfl, rfl, rfl⟩
    | _ => cases ha

/-- `a` gives a pass its turn. -/
structure Begins (ix : Indexer) (a : Action) (r : Running) : Prop where
  waits : ∀ r', ix.running = some r' → r'.call ≠ r.call
  turn : (ix.act a).running = some r

/-- `a` gives a pass its turn, and while no file changes the pass comes to the end of its walk with
`index`. -/
structure Executes (ix : Indexer) (a : Action) (during : List Action) (r : Running)
    (index : Index) : Prop where
  waits : ∀ r', ix.running = some r' → r'.call ≠ r.call
  turn : (ix.act a).running = some r
  still : ∀ b ∈ during, b.changesFiles = false
  computes : (ix.act a).Computes during r.call index

/-- The call whose pass has come to the end of its walk, with the index that it computed. -/
def walked? (ix : Indexer) : Option (Nat × Index) :=
  match ix.running with
  | some ⟨call, _, _, .walking w⟩ =>
    if w.ending? = some .complete then some (call, w.index) else none
  | _ => none

theorem computes_of_walked? {ix : Indexer} {during : List Action} {k : Nat} {index : Index}
    (h : (ix.run during).walked? = some (k, index)) : ix.Computes during k index := by
  unfold walked? at h
  split at h
  · rename_i running
    split at h
    · rename_i ended
      cases h
      exact ⟨during, [], _, _, by simp, running, rfl, rfl, ended, rfl⟩
    · cases h
  · cases h

/-- Which pass gets its turn in an idle indexer, and to which index it comes, can be seen by
running it. -/
theorem exists_begins_walked {ix : Indexer} {a : Action} {during : List Action} {k : Nat}
    (hidle : ix.running.isNone = true) (hturn : (ix.act a).running.map Running.call = some k)
    (hwalked : ((ix.act a).run during).walked?.map Prod.fst = some k) :
    ∃ r index, ((ix.act a).run during).walked? = some (r.call, index) ∧ ix.Begins a r ∧
      (ix.act a).Computes during r.call index := by
  obtain ⟨r, hr, hcall⟩ := Option.map_eq_some_iff.1 hturn
  obtain ⟨⟨k', index⟩, hindex, hk⟩ := Option.map_eq_some_iff.1 hwalked
  obtain rfl : k' = r.call := hk.trans hcall.symm
  refine ⟨r, index, hindex, ⟨?_, hr⟩, computes_of_walked? hindex⟩
  intro r' hr'
  simp [hr'] at hidle

theorem exists_executes_walked {ix : Indexer} {a : Action} {during : List Action} {k : Nat}
    (hidle : ix.running.isNone = true) (hstill : during.all (fun b => !b.changesFiles) = true)
    (hturn : (ix.act a).running.map Running.call = some k)
    (hwalked : ((ix.act a).run during).walked?.map Prod.fst = some k) :
    ∃ r index, ((ix.act a).run during).walked? = some (r.call, index) ∧
      ix.Executes a during r index := by
  obtain ⟨r, index, hindex, hbegins, hcomputes⟩ := exists_begins_walked hidle hturn hwalked
  exact ⟨r, index, hindex, hbegins.waits, hbegins.turn, by simpa using hstill, hcomputes⟩

theorem exists_executes {ix : Indexer} {a : Action} {during : List Action} {k : Nat}
    (hidle : ix.running.isNone = true) (hstill : during.all (fun b => !b.changesFiles) = true)
    (hturn : (ix.act a).running.map Running.call = some k)
    (hwalked : ((ix.act a).run during).walked?.map Prod.fst = some k) :
    ∃ r index, ix.Executes a during r index := by
  obtain ⟨r, index, _, h⟩ := exists_executes_walked hidle hstill hturn hwalked
  exact ⟨r, index, h⟩

/-- The call `k` has got its turn, and as long as its pass walks, the walk has a property. -/
structure Pursues (k : Nat) (plan : Plan) (P : Walk → Prop) (ix : Indexer) : Prop where
  made : k < ix.callCount
  gone : k ∉ ix.queue.map Job.call
  leads : ∀ {r w}, ix.running = some r → r.call = k → r.phase = .walking w →
    r.plan = plan ∧ P w

theorem Sound.pursues {ix : Indexer} (hix : ix.Sound) {r : Running} {w : Walk}
    (running : ix.running = some r) (phase : r.phase = .walking w) {P : Walk → Prop} (hw : P w) :
    ix.Pursues r.call r.plan P := by
  have hpending : ix.pendingCalls = r.call :: ix.queue.map Job.call := by
    simp [pendingCalls, running]
  refine ⟨?_, ?_, ?_⟩
  · have hmem : r.call ∈ ix.calls := by simp [calls, hpending]
    simpa using hix.accounted.mem_iff.1 hmem
  · have hnodup := (List.nodup_append.1 hix.accounted.nodup).2.1
    rw [hpending, List.nodup_cons] at hnodup
    exact hnodup.1
  · intro r' w' running' _ phase'
    cases running.symm.trans running'
    cases phase.symm.trans phase'
    exact ⟨rfl, hw⟩

/-- A call that has got its turn does not get it again. -/
theorem Pursues.not_turn {ix ix₁ ix' : Indexer} {a : Action} {k : Nat} {plan : Plan}
    {P : Walk → Prop} (hix : ix.Pursues k plan P) (reached : ix₁ = ix ∨ Event ix a ix₁)
    (turn : Turn ix₁ ix') {r : Running} (running : ix'.running = some r) : r.call ≠ k := by
  have hgone : k ∉ ix₁.queue.map Job.call := by
    rcases reached with rfl | h₁
    · exact hix.gone
    · exact (event_queue h₁ hix.made hix.gone).2
  obtain ⟨_, _, _, _, hqueued, _, rfl⟩ := turn_begun turn running
  intro hcall
  exact hgone (hcall ▸ List.mem_map.2 ⟨_, hqueued, rfl⟩)

/-- A pass that walks after its turn has come was walking before. -/
theorem Pursues.walked {ix ix' : Indexer} {a : Action} {k : Nat} {plan : Plan} {P : Walk → Prop}
    (hix : ix.Pursues k plan P) (h : Event ix a ix') {r : Running} {w : Walk}
    (running : ix'.running = some r) (hcall : r.call = k) (phase : r.phase = .walking w) :
    ∃ r₀ w₀, ix.running = some r₀ ∧ r₀.call = k ∧ r₀.phase = .walking w₀ := by
  cases event_walking h running phase with
  | started reached turn => exact absurd hcall (hix.not_turn reached turn running)
  | stayed running' => exact ⟨r, w, running', hcall, phase⟩
  | stepped running' phase' same _ =>
      exact ⟨_, _, running', by simpa [same] using hcall, phase'⟩

theorem event_pursues {ix ix' : Indexer} {a : Action} (h : Event ix a ix') {k : Nat} {plan : Plan}
    {P : Walk → Prop} (hP : ∀ {w : Walk} (cancelled : Bool), P w →
      P (w.step plan ix.files.view cancelled)) (hix : ix.Pursues k plan P) :
    ix'.Pursues k plan P := by
  obtain ⟨hmade, hgone⟩ := event_queue h hix.made hix.gone
  refine ⟨hmade, hgone, ?_⟩
  intro r w running hcall phase
  cases event_walking h running phase with
  | started reached turn => exact absurd hcall (hix.not_turn reached turn running)
  | stayed running' => exact hix.leads running' hcall phase
  | @stepped r₀ w₀ cancelled running' phase' same step =>
      obtain ⟨hplan, hw⟩ := hix.leads running' (by simpa [same] using hcall) phase'
      refine ⟨by simpa [same] using hplan, ?_⟩
      rw [step, hplan]
      exact hP cancelled hw

/-- As long as a pass walks, its walk goes on from where it was. -/
theorem Sound.proceeds {ix : Indexer} (hix : ix.Sound) {r : Running} {w : Walk}
    (running : ix.running = some r) (phase : r.phase = .walking w) (after : List Action)
    {r' : Running} {w' : Walk} (running' : (ix.run after).running = some r')
    (hcall : r'.call = r.call) (phase' : r'.phase = .walking w') :
    r'.plan = r.plan ∧ Walk.Proceeds r.plan w w' := by
  have hrun : (ix.run after).Pursues r.call r.plan (Walk.Proceeds r.plan w) :=
    run_preserves (fun hevent hix₁ =>
      event_pursues hevent (fun cancelled hw => hw.step _ cancelled)
      hix₁) (hix.pursues running phase .refl) after
  exact hrun.leads running' hcall phase'

/-- The walk of the running pass has come from its entry file. -/
def WalksFromEntry (ix : Indexer) : Prop :=
  ∀ r w, ix.running = some r → r.phase = .walking w →
    ∃ symbols, Walk.Proceeds r.plan (Walk.start r.project.entry symbols) w

theorem event_walksFromEntry {ix ix' : Indexer} {a : Action} (h : Event ix a ix')
    (hix : ix.WalksFromEntry) : ix'.WalksFromEntry := by
  intro r w running phase
  cases event_walking h running phase with
  | started reached turn =>
      obtain ⟨_, _, _, _, _, _, rfl⟩ := turn_begun turn running
      cases phase
      exact ⟨_, .refl⟩
  | stayed running' => exact hix r w running' phase
  | stepped running' phase' same step =>
      obtain ⟨symbols, hproceeds⟩ := hix _ _ running' phase'
      rw [same, step]
      exact ⟨symbols, hproceeds.step _ _⟩

theorem walksFromEntry_run (config : Config) (files : Memory) (actions : List Action) :
    ((new config files).run actions).WalksFromEntry :=
  run_preserves event_walksFromEntry (by rintro r w ⟨⟩) actions

/-- What holds of no files and of the index of every complete walk holds of the published index. -/
theorem snapshot_of_walks {P : Index → Prop} (hempty : P {})
    (hwalk : ∀ plan entry symbols w, Walk.Proceeds plan (Walk.start entry symbols) w →
      w.ending? = some .complete → P w.index)
    (config : Config) (files : Memory) (actions : List Action) :
    P ((new config files).run actions).snapshot.index := by
  have hstart : (new config files).WalksFromEntry := by rintro r w ⟨⟩
  have hrun := run_preserves (P := fun ix => ix.WalksFromEntry ∧ P ix.snapshot.index) ?_
    ⟨hstart, hempty⟩ actions
  · exact hrun.2
  · rintro ix ix' a hevent ⟨hentry, hsnapshot⟩
    refine ⟨event_walksFromEntry hevent hentry, ?_⟩
    rcases event_silent_or_publish hevent with
      ⟨hsame, _⟩ | ⟨r, w, running, phase, ended, _, _, rfl⟩
    · rw [hsame]
      exact hsnapshot
    · obtain ⟨symbols, hproceeds⟩ := hentry r w running phase
      exact hwalk _ _ _ _ hproceeds ended

/-- A pass that gets its turn has waited, and starts with the state of that moment. -/
theorem Begins.begun {ix : Indexer} {a : Action} {r : Running} (h : ix.Begins a r) :
    ∃ ix₁ call id project request,
      (ix₁ = ix ∨ Event ix a ix₁) ∧ Turn ix₁ (ix.act a) ∧
      .pass call id project request ∈ ix₁.queue ∧ ix₁.isCancelled id = false ∧
      r = ix₁.begun call id project request := by
  rcases event_running (act_event ix a) h.turn with
    ⟨ix₁, reached, turn⟩ | ⟨r₀, hr₀, hcall, _⟩
  · obtain ⟨call, id, project, request, hbegun⟩ := turn_begun turn h.turn
    exact ⟨ix₁, call, id, project, request, reached, turn, hbegun⟩
  · exact absurd hcall (h.waits r₀ hr₀)

theorem Begins.phase {ix : Indexer} {a : Action} {r : Running} (h : ix.Begins a r) :
    ∃ symbols, r.phase = .walking (Walk.start r.project.entry symbols) := by
  obtain ⟨_, _, _, _, _, _, _, _, _, rfl⟩ := h.begun
  exact ⟨_, rfl⟩

/-- A pass reports with the severity that was set when its turn came. -/
theorem Begins.severity {ix : Indexer} {a : Action} {r : Running} (h : ix.Begins a r) :
    r.plan.severity = (ix.act a).config.unresolvedImportSeverity := by
  obtain ⟨_, _, _, _, _, _, turn, _, _, rfl⟩ := h.begun
  rw [(waits_settings (.inr turn)).2.1]
  rfl

theorem Executes.begins {ix : Indexer} {a : Action} {during : List Action} {r : Running}
    {index : Index} (h : ix.Executes a during r index) : ix.Begins a r :=
  ⟨h.waits, h.turn⟩

/-- The walk of a pass during which no file changes is a run of steps over the files as they were
when its turn came. -/
theorem Executes.run {ix : Indexer} {a : Action} {during : List Action} {r : Running}
    {index : Index} (hix : ix.Sound) (h : ix.Executes a during r index) {w₀ : Walk}
    (phase : r.phase = .walking w₀) :
    ∃ n, (w₀.run r.plan (ix.act a).files.view n).ending? = some .complete ∧
      (w₀.run r.plan (ix.act a).files.view n).index = index := by
  obtain ⟨mid, rest, r', w, rfl, running, hcall, phase', ended, rfl⟩ := h.computes
  have hsound := event_sound (act_event ix a) hix
  have hrun : (ix.act a).files.SameFiles ((ix.act a).run mid).files ∧ ((ix.act a).run mid).Pursues
      r.call r.plan (Walk.Leads r.plan (ix.act a).files.view w₀) := by
    refine run_preserves_mem (P := fun ix' => (ix.act a).files.SameFiles ix'.files ∧ ix'.Pursues
      r.call r.plan (Walk.Leads r.plan (ix.act a).files.view w₀)) ?_
      ⟨.refl _, hsound.pursues h.turn phase .refl⟩
    rintro ix₁ ix₂ b hb hevent ⟨hfiles, hpursues⟩
    have hstill := h.still b (List.mem_append_left _ hb)
    refine ⟨hfiles.trans (sameFiles_of_event hevent hstill), event_pursues hevent ?_ hpursues⟩
    intro w₁ cancelled hleads
    rw [hfiles.view_eq]
    exact hleads.step cancelled
  have hvalid : w.stage ≠ .ended .cancelled := by simp [Walk.stage_of_ending ended]
  obtain ⟨n, rfl⟩ := (hrun.2.leads running hcall phase').2.eq_run hvalid
  exact ⟨n, ended, rfl⟩

/-- With all gates open, a pass that nobody cancels gets through any part of its walk. -/
theorem run_advance {ix : Indexer} {r : Running} {w : Walk} (running : ix.running = some r)
    (phase : r.phase = .walking w) (hopen : ix.files.gated = OrderedMap.empty)
    (hvalid : ix.isCancelled r.plan.pass = false) (n : Nat) :
    ∃ k, (ix.run (List.replicate k .advance)).running =
      some { r with phase := .walking (w.run r.plan ix.files.view n) } := by
  induction n generalizing ix r w with
  | zero => exact ⟨0, by simp [run_nil, running, Walk.run, ← phase]⟩
  | succ n ih =>
      cases hending : w.ending? with
      | some ending =>
          exact ⟨0, by simp [run_nil, running, Walk.run_of_ended hending, ← phase]⟩
      | none =>
          have hact := act_advance_walk running phase hending (w.not_heldBack hopen)
          rw [hvalid] at hact
          have hrunning : (ix.act .advance).running =
              some { r with phase := .walking (w.step r.plan ix.files.view false) } := by
            rw [hact]
          have hfiles : (ix.act .advance).files = w.counted ix.files := by rw [hact]
          obtain ⟨k, hk⟩ := ih hrunning rfl (by rw [hfiles, Walk.gated_counted, hopen])
            (by rw [hact]; exact hvalid)
          refine ⟨k + 1, ?_⟩
          rw [List.replicate_succ, run_cons, hk, Walk.run_of_going hending, hfiles,
            (Walk.sameFiles_counted w ix.files).view_eq]

end Indexer

end AsmIndex

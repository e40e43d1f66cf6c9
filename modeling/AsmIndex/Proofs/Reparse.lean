import AsmIndex.Proofs.IndexCounts
import AsmIndex.Proofs.PassTrace
import AsmIndex.Proofs.Publication
import AsmIndex.Proofs.Settling
import AsmIndex.Proofs.WalkRepeat

/-!
Parsing again. After a pass has completed, a pass for the same request over the same files with
the same settings computes nothing new: it takes over every variant, publishes nothing and tells
nobody.
-/

namespace AsmIndex

/-- What a pass with the number `pass` reports that has nothing to do after one that reported
`s`. -/
def Summary.repeated (s : Summary) (pass : Nat) : Summary :=
  { s with pass, reused := s.variants, tokenized := 0, changes := {}, published := false }

namespace Walk.Retraces

variable {plan plan' : Plan} {m : Memory} {entry : Path} {symbols : Symbols} {w : Walk}

/-- The later walk takes over all variants and leaves all files as they were. -/
theorem unchanged (h : Retraces plan plan' m entry symbols) (hfilled : plan.previous.Filled)
    (hw : Leads plan m.view (start entry symbols) w) (hend : w.ending? = some .complete) :
    (∀ p, w.index.files.get? p = plan.previous.files.get? p) ∧ w.tokenized = 0 ∧
      w.reused = w.index.variantCount := by
  obtain ⟨n, rfl⟩ := hw.eq_run (by simp [stage_of_ending hend])
  have htokenized := (h.run n).1.tokenized
  have htallied := (run_proceeds plan m.view (start entry symbols) n).tallied
  refine ⟨Index.files_get?_eq htallied.filled hfilled (h.complete hend).2, htokenized, ?_⟩
  have hcounted := htallied.counted
  rwa [htokenized] at hcounted

theorem between_eq_empty (h : Retraces plan plan' m entry symbols)
    (hfilled : plan.previous.Filled) (hw : Leads plan m.view (start entry symbols) w)
    (hend : w.ending? = some .complete) : Changes.between plan.previous w.index = {} :=
  Changes.between_eq_empty (h.unchanged hfilled hw hend).1

/-- The later walk does not fail. -/
theorem readable (h : Retraces plan plan' m entry symbols)
    (hw : Leads plan m.view (start entry symbols) w) (e : FileError) :
    w.ending? ≠ some (.unreadable e) := by
  intro hend
  obtain ⟨n, rfl⟩ := hw.eq_run (by simp [stage_of_ending hend])
  cases (h.complete hend).1

/-- No text is read. -/
theorem unread (h : Retraces plan plan' m entry symbols)
    (hw : Leads plan m.view (start entry symbols) w) {p : Path} {s : Symbols} {time : Nat}
    (stage : w.stage = .read p s time) : ∃ e, m.view.read p = .error e := by
  obtain ⟨n, rfl⟩ := hw.eq_run (by simp [stage])
  obtain ⟨_, k, hm⟩ := h.run n
  exact h.unreadable (run_explores h.fresh n) hm stage

end Walk.Retraces

namespace Indexer

theorem filled_run (config : Config) (files : Memory) (actions : List Action) :
    ((new config files).run actions).snapshot.index.Filled :=
  snapshot_of_walks Index.filled_empty (fun _ _ _ _ hproceeds _ => hproceeds.tallied.filled)
    config files actions

/-- An action that changes neither files nor settings. -/
def Action.Quiet (a : Action) : Prop :=
  a.changesFiles = false ∧ ∀ config, a ≠ .call (.setConfig config)

section Waiting

variable {ix ix' : Indexer} {a : Action} {k j : Nat} {project : Project} {request : Request}

/-- What a pass starts with depends on the settings and on the published index only. -/
theorem begun_congr (hconfig : ix'.config = ix.config) (hsnapshot : ix'.snapshot = ix.snapshot) :
    ix'.begun k j project request = ix.begun k j project request := by
  simp only [begun, planOf, symbolsOf, hconfig, hsnapshot]

theorem planOf_alike (hconfig : ix'.config = ix.config) (j j' : Nat) (project : Project)
    (request : Request) :
    (ix'.planOf j' project request).Alike (ix.planOf j project request) := by
  constructor <;> simp only [planOf, hconfig]

/-- A pass that waits goes on waiting, or is dismissed, or gets its turn. -/
theorem event_queued (h : Event ix a ix') (queued : .pass k j project request ∈ ix.queue) :
    .pass k j project request ∈ ix'.queue ∨ (k, .cancelled) ∈ ix'.outcomes ∨
      ix'.running = some (ix'.begun k j project request) := by
  have hwaits : ∀ {ix₁}, Waits ix₁ ix' → .pass k j project request ∈ ix₁.queue →
      .pass k j project request ∈ ix'.queue ∨ (k, .cancelled) ∈ ix'.outcomes ∨
        ix'.running = some (ix'.begun k j project request) :=
    fun waits hmem => (waits_queued waits hmem).imp_right (.imp_left And.right)
  cases h with
  | ask asks waits => exact hwaits waits (List.mem_append_left _ queued)
  | stop waits => exact hwaits waits (List.mem_append_left _ queued)
  | turn h => exact hwaits (.inr h) queued
  | _ => exact .inl queued

/-- No pass publishes that another one waits behind. -/
theorem silent_of_queued (h : Event ix a ix') (hix : ix.Sound)
    (queued : .pass k j project request ∈ ix.queue) :
    ix'.snapshot = ix.snapshot ∧ ix'.notices = ix.notices := by
  rcases event_silent_or_publish h with hsilent | ⟨r, w, running, phase, _, valid, _, _⟩
  · exact hsilent
  · have hpending := pending_of_walking running phase
    have hqueue : j ∈ ix.queue.filterMap Job.pass? := List.mem_filterMap.2 ⟨_, queued, rfl⟩
    have heq := hix.ordered.eq_asked (by simp [hpending]) (isCancelled_eq_false_iff.1 valid)
    have hlt := (List.pairwise_cons.1 (hpending ▸ hix.ordered.sorted)).1 j hqueue
    have hle := hix.ordered.bounded j (by simp [hpending, hqueue])
    omega

theorem event_config (h : Event ix a ix') (ha : ∀ c, a ≠ .call (.setConfig c)) :
    ix'.config = ix.config := by
  cases h with
  | ask asks waits =>
      rw [(waits_settings waits).2.1]
      cases asks with
      | setConfig => exact absurd rfl (ha _)
      | _ => rfl
  | stop waits => rw [(waits_settings waits).2.1]; rfl
  | turn h => rw [(waits_settings (.inr h)).2.1]
  | refuse none kind =>
      rcases kind with ⟨_, _, rfl⟩ | rfl
      · rfl
      · exact absurd rfl (ha _)
  | configure => exact absurd rfl (ha _)
  | _ => rfl

end Waiting

/-- The pass that a call to parse asks for now, as it starts with the settings and the index of
now. -/
def upcoming (ix : Indexer) (project : Project) (request : Request) : Running :=
  ix.begun ix.callCount (ix.passCount + 1) project request

/-- The walks that the upcoming pass comes to over the files of `m`. -/
def UpcomingWalk (ix : Indexer) (m : Memory) (project : Project) (request : Request) (w : Walk) :
    Prop :=
  Walk.Leads (ix.upcoming project request).plan m.view
    (Walk.start project.entry (ix.symbolsOf request)) w

/-- What becomes of the pass that was asked for at `origin`, as long as neither files nor settings
change: it waits, or it goes on as it would have at `origin`; and until it is over nothing is
published and nobody is told anything. -/
structure Rerun (origin : Indexer) (m : Memory) (project : Project) (request : Request)
    (ix : Indexer) : Prop where
  undisturbed : ix.Undisturbed m
  config : ix.config = origin.config
  course : .pass origin.callCount (origin.passCount + 1) project request ∈ ix.queue ∨
    Trace (origin.upcoming project request) (origin.UpcomingWalk m project request) ix
  silent : (∀ o, (origin.callCount, o) ∉ ix.outcomes) →
    ix.snapshot = origin.snapshot ∧ ix.notices = origin.notices

section Rerun

variable {origin ix ix' : Indexer} {m : Memory} {project : Project} {request : Request} {a : Action}

/-- A call to parse asks for the pass. -/
theorem rerun_parse (hix : origin.Undisturbed m) (established : origin.project = some project) :
    Rerun origin m project request (origin.act (.call (.parse request))) := by
  have waits := parse_waits established request
  have hconfig : (origin.act (.call (.parse request))).config = origin.config :=
    (waits_settings waits).2.1
  obtain ⟨hsnapshot, hnotices, _⟩ := waits_frame waits
  refine ⟨event_undisturbed (act_event origin _) rfl hix, hconfig, ?_, fun _ =>
    ⟨hsnapshot, hnotices⟩⟩
  rcases waits_queued waits (List.mem_append_right _ (List.mem_singleton_self _)) with
    hqueued | ⟨_, hcancelled⟩ | hrunning
  · exact .inl hqueued
  · exact .inr (.cancelled hcancelled)
  · rw [begun_congr hconfig hsnapshot] at hrunning
    exact .inr (.walking hrunning .refl)

/-- A pass that is not over publishes nothing, if its complete walks change nothing. -/
theorem Rerun.silent_event (h : Event ix a ix') (hix : Rerun origin m project request ix)
    (hquiet : ∀ {w}, origin.UpcomingWalk m project request w → w.ending? = some .complete →
      Changes.between origin.snapshot.index w.index = {})
    (hwaits : ∀ o, (origin.callCount, o) ∉ ix.outcomes) :
    ix'.snapshot = origin.snapshot ∧ ix'.notices = origin.notices := by
  obtain ⟨hsnapshot, hnotices⟩ := hix.silent hwaits
  rw [← hsnapshot, ← hnotices]
  rcases hix.course with queued | htrace
  · exact silent_of_queued h hix.undisturbed.fresh.sound queued
  · cases htrace with
    | walking running walk =>
        rcases event_silent_or_publish h with
          hsilent | ⟨r, w, running', phase, ended, _, changed, _⟩
        · exact hsilent
        · cases running.symm.trans running'
          cases phase
          cases (congrArg Changes.isEmpty (hquiet walk ended)).symm.trans changed
    | joining _ walk ended changed =>
        cases (congrArg Changes.isEmpty (hquiet walk ended)).symm.trans changed
    | completed reported | cancelled reported | failed reported =>
        exact absurd reported (hwaits _)

theorem event_rerun (h : Event ix a ix') (ha : a.Quiet)
    (hquiet : ∀ {w}, origin.UpcomingWalk m project request w → w.ending? = some .complete →
      Changes.between origin.snapshot.index w.index = {})
    (hix : Rerun origin m project request ix) : Rerun origin m project request ix' where
  undisturbed := event_undisturbed h ha.1 hix.undisturbed
  config := (event_config h ha.2).trans hix.config
  silent := fun hwaits =>
    hix.silent_event h hquiet fun o ho => hwaits o (event_outcomes h ho)
  course := by
    rcases hix.course with queued | htrace
    · have hwaits := hix.undisturbed.fresh.sound.accounted.not_mem_outcomes
        (List.mem_append_right _ (List.mem_map.2 ⟨_, queued, rfl⟩))
      rcases event_queued h queued with hqueued | hcancelled | hrunning
      · exact .inl hqueued
      · exact .inr (.cancelled hcancelled)
      · rw [begun_congr ((event_config h ha.2).trans hix.config)
          (hix.silent_event h hquiet hwaits).1] at hrunning
        exact .inr (.walking hrunning .refl)
    · refine .inr (event_trace h hix.undisturbed.fresh.sound ?_ htrace)
      intro w cancelled _ hw
      rw [hix.undisturbed.files.view_eq]
      exact hw.step cancelled

theorem run_rerun (hix : Rerun origin m project request ix)
    (hquiet : ∀ {w}, origin.UpcomingWalk m project request w → w.ending? = some .complete →
      Changes.between origin.snapshot.index w.index = {}) {after : List Action}
    (hafter : ∀ b ∈ after, b.Quiet) : Rerun origin m project request (ix.run after) :=
  run_preserves_mem (fun hb hevent => event_rerun hevent (hafter _ hb) hquiet) hix

/-- As long as the pass walks, it does what it would have done at `origin`. -/
theorem Rerun.walk (hix : Rerun origin m project request ix) {r : Running} {w : Walk}
    (running : ix.running = some r) (hcall : r.call = origin.callCount)
    (phase : r.phase = .walking w) : origin.UpcomingWalk m project request w := by
  have haccounted := hix.undisturbed.fresh.sound.accounted
  have hpending : origin.callCount ∈ ix.pendingCalls := by simp [pendingCalls, running, hcall]
  rcases hix.course with queued | htrace
  · have hnodup := (List.nodup_append.1 haccounted.nodup).2.1
    simp only [pendingCalls, running, Option.toList_some, List.map_cons, List.map_nil,
      List.cons_append, List.nil_append, List.nodup_cons, hcall] at hnodup
    exact absurd (List.mem_map.2 ⟨_, queued, rfl⟩) hnodup.1
  · cases htrace with
    | walking running' walk =>
        cases running.symm.trans running'
        cases phase
        exact walk
    | joining running' =>
        cases running.symm.trans running'
        cases phase
    | completed reported | cancelled reported | failed reported =>
        exact absurd reported (haccounted.not_mem_outcomes hpending _)

/-- The pass completes with what it would have reported at `origin`, or is cancelled. -/
theorem Rerun.outcome (hix : Rerun origin m project request ix)
    (hreadable : ∀ {w}, origin.UpcomingWalk m project request w →
      ∀ e, w.ending? ≠ some (.unreadable e)) {report : Summary}
    (hreport : ∀ {w}, origin.UpcomingWalk m project request w → w.ending? = some .complete →
      (origin.upcoming project request).summary w = report) {o : Outcome}
    (ho : (origin.callCount, o) ∈ ix.outcomes) : o = .completed report ∨ o = .cancelled := by
  have haccounted := hix.undisturbed.fresh.sound.accounted
  rcases hix.course with queued | htrace
  · exact absurd ho (haccounted.not_mem_outcomes
      (List.mem_append_right _ (List.mem_map.2 ⟨_, queued, rfl⟩)) o)
  · rcases htrace.outcome haccounted ho with
      hcancelled | ⟨w, e, hw, hend, _⟩ | ⟨w, hw, hend, hcompleted, _⟩
    · exact .inr hcancelled
    · exact absurd hend (hreadable hw e)
    · rw [hcompleted, hreport hw hend]
      exact .inl rfl

end Rerun

/-- Let all reads pass and take `n` steps. -/
def proceeding (n : Nat) : List Action := .openGate :: List.replicate n .advance

theorem mem_proceeding {n : Nat} {b : Action} (hb : b ∈ proceeding n) :
    b = .openGate ∨ b = .advance := by
  rcases List.mem_cons.1 hb with rfl | hb
  · exact .inl rfl
  · exact .inr (List.eq_of_mem_replicate hb)

theorem quiet_proceeding (n : Nat) : ∀ b ∈ proceeding n, b.Quiet := by
  intro b hb
  rcases mem_proceeding hb with rfl | rfl <;> simp [Action.Quiet, Action.changesFiles]

theorem run_proceeding_succ (ix : Indexer) (n : Nat) :
    ix.run (proceeding (n + 1)) = (ix.run (proceeding n)).act .advance := by
  rw [proceeding, List.replicate_succ', ← List.cons_append, run_append]
  rfl

/-- Steps ask for no pass. -/
theorem passCount_proceeding (ix : Indexer) (n : Nat) :
    (ix.run (proceeding n)).passCount = ix.passCount := by
  refine run_preserves_mem (P := fun ix' => ix'.passCount = ix.passCount) ?_ rfl
  intro ix₁ ix₂ b hb h hcount
  rw [← hcount]
  cases h with
  | ask | stop => simpa using mem_proceeding hb
  | turn h => exact (waits_frame (.inr h)).2.2.1
  | _ => rfl

/-- Steps lead to the moment at which a call is over. -/
theorem Undisturbed.exists_proceeding {ix : Indexer} {m : Memory} (hix : ix.Undisturbed m) {k : Nat}
    (hk : k < ix.callCount) :
    ∃ n, (∃ o, (k, o) ∈ (ix.run (proceeding n)).outcomes) ∧
      ∀ j < n, ∀ o, (k, o) ∉ (ix.run (proceeding j)).outcomes := by
  classical
  have hover : ∃ n o, (k, o) ∈ (ix.run (proceeding n)).outcomes := by
    have hopened : (ix.act .openGate).Undisturbed m := event_undisturbed (act_event ix _) rfl hix
    obtain ⟨n, hn⟩ := hopened.outcomes rfl
    exact ⟨n, hn k hk⟩
  refine ⟨Nat.find hover, Nat.find_spec hover, fun j hj o ho => ?_⟩
  exact Nat.find_min hover hj ⟨o, ho⟩

theorem passCount_parse {ix : Indexer} {project : Project} (established : ix.project = some project)
    (request : Request) : (ix.act (.call (.parse request))).passCount = ix.passCount + 1 :=
  (waits_frame (parse_waits established request)).2.2.1

theorem callCount_parse {ix : Indexer} {project : Project} (established : ix.project = some project)
    (request : Request) : ix.callCount < (ix.act (.call (.parse request))).callCount := by
  rw [(waits_queue (parse_waits established request)).2]
  exact Nat.lt_succ_self _

/-- A pass is cancelled only if another one is asked for or a stop is called. -/
theorem superseded_or_stopped {ix : Indexer} {project : Project} {request : Request}
    {after : List Action} (hix : ix.Sound) (established : ix.project = some project)
    (hcancelled : (ix.callCount, .cancelled) ∈
      ((ix.act (.call (.parse request))).run after).outcomes) :
    ix.passCount + 1 < ((ix.act (.call (.parse request))).run after).passCount ∨
      .call .stop ∈ after := by
  have hcount := passCount_parse established request
  have hsound := event_sound (act_event ix (.call (.parse request))) hix
  have hle := passCount_le_run (ix.act (.call (.parse request))) after
  by_contra hnot
  obtain ⟨hlast, hstop⟩ := not_or.1 hnot
  have hcourse := course_run hsound (course_ask hix hcount) hcount after (by omega) hstop
  exact (hcourse.outcome (run_sound hsound after).accounted).1 hcancelled

/-- After a pass has completed, a pass for the same request over the same files goes over what the
first one left. -/
theorem Begins.retraces {ix : Indexer} {a : Action} {r : Running} {request : Request}
    {mid : List Action} {summary : Summary} (hix : ix.Fresh)
    (hcanonical : ∀ p s v, (ix.act a).snapshot.index.get? p s = some v →
      ∀ ref ∈ v.references, ref.Canonical)
    (begins : ix.Begins a r)
    (asked : r = (ix.act a).begun r.call r.plan.pass r.project request)
    (still : ∀ b ∈ mid, b.changesFiles = false)
    (completed : (r.call, .completed summary) ∈ ((ix.act a).run mid).outcomes)
    (latest : ((ix.act a).run mid).snapshot.pass ≤ r.plan.pass)
    (settings : ((ix.act a).run mid).config = (ix.act a).config) :
    ∃ w : Walk, w.Tallied ∧ summary = r.summary w ∧
      (∀ p s, ((ix.act a).run mid).snapshot.index.get? p s = w.index.get? p s) ∧
      Walk.Retraces (((ix.act a).run mid).upcoming r.project request).plan r.plan
        (ix.act a).files r.project.entry (((ix.act a).run mid).symbolsOf request) := by
  have hundisturbed := begins.undisturbed hix
  have hafter := run_undisturbed hundisturbed still
  have hplan : r.plan = (ix.act a).planOf r.plan.pass r.project request :=
    congrArg Running.plan asked
  have phase : r.phase =
      .walking (Walk.start r.project.entry (((ix.act a).run mid).symbolsOf request)) := by
    rw [symbolsOf, settings]
    exact congrArg Running.phase asked
  have hprevious : r.plan.previous = (ix.act a).snapshot.index := congrArg Plan.previous hplan
  -- The first pass has completed its walk, and what it computed is what is published.
  have htrace := run_trace hundisturbed.fresh.sound (.refl _) begins.turn phase still
  obtain ⟨w, hleads, hend, hsummary, hshown⟩ :
      ∃ w : Walk, Walk.Leads r.plan (ix.act a).files.view (Walk.start r.project.entry
          (((ix.act a).run mid).symbolsOf request)) w ∧ w.ending? = some .complete ∧
        summary = r.summary w ∧
        ∀ p s, ((ix.act a).run mid).snapshot.index.get? p s = w.index.get? p s := by
    rcases htrace.outcome hafter.fresh.sound.accounted completed with
      hcancelled | ⟨_, _, _, _, hfailed⟩ | ⟨w, hleads, hend, hcompleted, hshown⟩
    · cases hcancelled
    · cases hfailed
    · cases hcompleted
      exact ⟨w, hleads, hend, rfl, hshown latest⟩
  obtain ⟨n, rfl⟩ := hleads.eq_run (by simp [Walk.stage_of_ending hend])
  refine ⟨_, (Walk.run_proceeds _ _ _ n).tallied, hsummary, hshown, ?_⟩
  refine ⟨?_, ?_, hundisturbed.previous begins.turn phase, ?_, n, hend, hshown⟩
  · rw [hplan]
    exact planOf_alike settings _ _ _ _
  · intro p s v hv
    exact lasting_fresh.variant (.inl hafter.files.symm) (hafter.fresh.holding.snapshot p s v hv)
  · rw [hprevious]
    exact hcanonical

/-- What the pass reports if its walk completes. -/
theorem summary_upcoming {origin : Indexer} {m : Memory} {project : Project} {request : Request}
    {r : Running} {w w' : Walk} (hfilled : origin.snapshot.index.Filled) {plan' : Plan}
    (h : Walk.Retraces (origin.upcoming project request).plan plan' m project.entry
      (origin.symbolsOf request))
    (hw' : w'.Tallied)
    (hshown : ∀ p s, origin.snapshot.index.get? p s = w'.index.get? p s)
    (hw : origin.UpcomingWalk m project request w) (hend : w.ending? = some .complete) :
    (origin.upcoming project request).summary w =
      (r.summary w').repeated (origin.passCount + 1) := by
  obtain ⟨hsame, htokenized, hreused⟩ := h.unchanged hfilled hw hend
  have hfirst : ∀ p, w.index.files.get? p = w'.index.files.get? p := fun p =>
    (hsame p).trans (Index.files_get?_eq hfilled hw'.filled hshown p)
  simp only [Running.summary, Summary.repeated, h.between_eq_empty hfilled hw hend, htokenized,
    hreused, Index.variantCount_eq_of_files hfirst, Index.size_eq_of_files hfirst]
  rfl

/-- The pass that a call to parse asks for at `origin` has nothing to do: its walk does not fail,
and once it is complete it has changed nothing and reports `report`. -/
structure Uneventful (origin : Indexer) (m : Memory) (project : Project) (request : Request)
    (report : Summary) : Prop where
  undisturbed : origin.Undisturbed m
  established : origin.project = some project
  readable : ∀ {w}, origin.UpcomingWalk m project request w →
    ∀ e, w.ending? ≠ some (.unreadable e)
  unchanged : ∀ {w}, origin.UpcomingWalk m project request w → w.ending? = some .complete →
    Changes.between origin.snapshot.index w.index = {}
  reports : ∀ {w}, origin.UpcomingWalk m project request w → w.ending? = some .complete →
    (origin.upcoming project request).summary w = report

namespace Uneventful

variable {origin : Indexer} {m : Memory} {project : Project} {request : Request} {report : Summary}
  {after : List Action}

theorem rerun (h : Uneventful origin m project request report) (hafter : ∀ b ∈ after, b.Quiet) :
    Rerun origin m project request ((origin.act (.call (.parse request))).run after) :=
  run_rerun (rerun_parse h.undisturbed h.established) h.unchanged hafter

/-- Until the pass is over, and on the step that ends it, nothing is published. -/
theorem silent (h : Uneventful origin m project request report) (hafter : ∀ b ∈ after, b.Quiet)
    (hwaits : ∀ o, (origin.callCount, o) ∉
      ((origin.act (.call (.parse request))).run after).outcomes) (b : Action) :
    (((origin.act (.call (.parse request))).run after).act b).snapshot = origin.snapshot ∧
      (((origin.act (.call (.parse request))).run after).act b).notices = origin.notices :=
  (h.rerun hafter).silent_event (act_event _ b) h.unchanged hwaits

/-- The pass reports `report` unless it is superseded or stopped. -/
theorem outcome (h : Uneventful origin m project request report) (hafter : ∀ b ∈ after, b.Quiet)
    (o : Outcome)
    (ho : (origin.callCount, o) ∈ ((origin.act (.call (.parse request))).run after).outcomes) :
    o = .completed report ∨ o = .cancelled ∧
      (origin.passCount + 1 < ((origin.act (.call (.parse request))).run after).passCount ∨
        .call .stop ∈ after) := by
  rcases (h.rerun hafter).outcome h.readable h.reports ho with hcompleted | rfl
  · exact .inl hcompleted
  · exact .inr ⟨rfl, superseded_or_stopped h.undisturbed.fresh.sound h.established ho⟩

/-- With all reads let through, steps lead to the report of the pass, and nothing is published. -/
theorem completes (h : Uneventful origin m project request report) :
    ∃ n, (origin.callCount, .completed report) ∈
        ((origin.act (.call (.parse request))).run (proceeding n)).outcomes ∧
      ((origin.act (.call (.parse request))).run (proceeding n)).snapshot = origin.snapshot ∧
      ((origin.act (.call (.parse request))).run (proceeding n)).notices = origin.notices := by
  have hcalled : (origin.act (.call (.parse request))).Undisturbed m :=
    event_undisturbed (act_event origin _) rfl h.undisturbed
  obtain ⟨n, ⟨o, ho⟩, hfirst⟩ :=
    hcalled.exists_proceeding (callCount_parse h.established request)
  refine ⟨n, ?_, ?_⟩
  · rcases h.outcome (quiet_proceeding n) o ho with rfl | ⟨_, hlater | hstop⟩
    · exact ho
    · rw [passCount_proceeding, passCount_parse h.established request] at hlater
      exact absurd hlater (Nat.lt_irrefl _)
    · simpa using mem_proceeding hstop
  · cases n with
    | zero =>
        obtain ⟨hsnapshot, hnotices, _⟩ := waits_frame (parse_waits h.established request)
        exact ⟨hsnapshot, hnotices⟩
    | succ n =>
        rw [run_proceeding_succ]
        exact h.silent (quiet_proceeding n) (hfirst n (Nat.lt_succ_self n)) .advance

end Uneventful

/-- Parsing again changes nothing. Let a pass for a request have completed, with no file changed
since its turn came and no later pass published, and let a call ask for the same request under the
same settings. With all reads let through, steps alone lead to the outcome of its pass: it has
taken over as many variants as the first one had and made none, and reports no changes; the
published index is the one from before the call, and no subscriber was told of it. In general, as
long as neither files nor settings change, the pass has no other outcome unless it is superseded
or stopped; no read that it makes succeeds; and nothing is published and nobody told while it is
not over, nor on the step that ends it. -/
theorem reparse_changes_nothing (config : Config) (before mid : List Action) (a : Action)
    (r : Running) (request : Request) (summary : Summary)
    (begins : ((new config {}).run before).Begins a r)
    (asked : r = (((new config {}).run before).act a).begun r.call r.plan.pass r.project request)
    (still : ∀ b ∈ mid, b.changesFiles = false)
    (completed : (r.call, .completed summary) ∈
      ((((new config {}).run before).act a).run mid).outcomes)
    (latest : ((((new config {}).run before).act a).run mid).snapshot.pass ≤ r.plan.pass)
    (settings : ((((new config {}).run before).act a).run mid).config =
      (((new config {}).run before).act a).config)
    (project : ((((new config {}).run before).act a).run mid).project = some r.project) :
    let origin := (((new config {}).run before).act a).run mid
    let called := origin.act (.call (.parse request))
    let repeated := summary.repeated (origin.passCount + 1)
    (∃ n, (origin.callCount, .completed repeated) ∈ (called.run (proceeding n)).outcomes ∧
        (called.run (proceeding n)).snapshot = origin.snapshot ∧
        (called.run (proceeding n)).notices = origin.notices) ∧
      ∀ after : List Action, (∀ b ∈ after, b.Quiet) →
        let ix := called.run after
        (∀ o, (origin.callCount, o) ∈ ix.outcomes → o = .completed repeated ∨
          o = .cancelled ∧ (origin.passCount + 1 < ix.passCount ∨ .call .stop ∈ after)) ∧
        (∀ r' w p s t, ix.running = some r' → r'.call = origin.callCount →
          r'.phase = .walking w → w.stage = .read p s t →
          ∃ e, ix.files.view.read p = .error e) ∧
        ((∀ o, (origin.callCount, o) ∉ ix.outcomes) → ∀ b,
          (ix.act b).snapshot = origin.snapshot ∧ (ix.act b).notices = origin.notices) := by
  intro origin called repeated
  have hfresh : ((new config {}).run before).Fresh :=
    fresh_run config (by intro p f hf; cases hf) before
  have hcanonical := (canonical_run config {} (before ++ [a])).snapshot
  have hfilled := filled_run config {} (before ++ a :: mid)
  rw [run_append] at hcanonical hfilled
  obtain ⟨w, htallied, rfl, hshown, hretraces⟩ :=
    begins.retraces hfresh hcanonical asked still completed latest settings
  have huneventful : Uneventful origin (((new config {}).run before).act a).files r.project request
      repeated :=
    { undisturbed := run_undisturbed (begins.undisturbed hfresh) still
      established := project
      readable := hretraces.readable
      unchanged := hretraces.between_eq_empty hfilled
      reports := summary_upcoming hfilled hretraces htallied hshown }
  refine ⟨huneventful.completes, fun after hafter => ⟨huneventful.outcome hafter, ?_,
    huneventful.silent hafter⟩⟩
  have hrerun := huneventful.rerun hafter
  intro r' w' p s t running hcall phase stage
  rw [hrerun.undisturbed.files.view_eq]
  exact hretraces.unread (hrerun.walk running hcall phase) stage

/-- Two files that import each other, an import that is found nowhere, one whose reads fail, and a
subscriber. -/
def mutualImports : List Action :=
  [.write ⟨"main.asm"⟩ "#import \"a\"\n#import \"c\"\n#import \"b\"\n",
    .write ⟨"a"⟩ "#import \"main.asm\"\n", .write ⟨"b"⟩ "", .failReads ⟨"b"⟩,
    .subscribe ⟨"s", fun _ => {}⟩]

/-- The first pass publishes two variants; the second takes both over and publishes nothing,
although it comes to the two imports that cannot be had as well. -/
theorem reparse_changes_nothing_mutual :
    ∃ summary n, (0, .completed summary) ∈
        ((((new {} {}).run mutualImports).act (.call (.initial ⟨""⟩ {}))).run
          (List.replicate 25 .advance)).outcomes ∧
      summary.published = true ∧
      ((((new {} {}).run mutualImports).act (.call (.initial ⟨""⟩ {}))).run
        (List.replicate 25 .advance)).snapshot.index.variantCount = 2 ∧
      (1, .completed (summary.repeated 2)) ∈
        ((((((new {} {}).run mutualImports).act (.call (.initial ⟨""⟩ {}))).run
          (List.replicate 25 .advance)).act (.call (.parse {}))).run (proceeding n)).outcomes := by
  have hpublished : (((((new {} {}).run mutualImports).act (.call (.initial ⟨""⟩ {}))).run
      (List.replicate 25 .advance)).outcomes.any fun x => x.1 == 0 && x.2.published) = true := by
    decide +kernel
  obtain ⟨⟨k, o⟩, hmem, hx⟩ := List.any_eq_true.1 hpublished
  simp only [Bool.and_eq_true, beq_iff_eq] at hx
  obtain ⟨rfl, ho⟩ := hx
  cases o with
  | completed summary =>
      have hbegins : ((new {} {}).run mutualImports).Begins (.call (.initial ⟨""⟩ {}))
          ((((new {} {}).run mutualImports).act (.call (.initial ⟨""⟩ {}))).begun 0 1
            (Project.of (Path.normalized ⟨""⟩) "main.asm") {}) :=
        ⟨fun r' hr' => (by cases hr'), rfl⟩
      have hstill : ∀ b ∈ List.replicate 25 Action.advance, b.changesFiles = false := by decide
      obtain ⟨⟨n, hn, _⟩, _⟩ :=
        reparse_changes_nothing {} mutualImports _ _ _ {} summary hbegins
        rfl hstill hmem (by decide +kernel) (by decide +kernel) (by decide +kernel)
      exact ⟨summary, n, hmem, ho, by decide +kernel, hn⟩
  | _ => cases ho

end Indexer

end AsmIndex

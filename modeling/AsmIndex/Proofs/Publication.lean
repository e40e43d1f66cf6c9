import AsmIndex.Proofs.Supersession

/-!
Publications. The published index and what subscribers are told agree: an index is published exactly
by the passes that complete with changes, each tells every subscriber once of its difference to the
index it replaces, and the differences together lead from no files to the files of the published
index. A pass that published is over only when each attached task, whether it fails or not, has left
the list of those that the pass waits for; and a task leaves it only when nothing holds it back.
-/

namespace AsmIndex

/-- Whether a call came to a pass that published. -/
def Outcome.published : Outcome → Bool
  | .completed summary => summary.published
  | _ => false

/-- What a set of paths becomes when files are deleted and added. -/
def Changes.apply (c : Changes) (paths : Path → Bool) (p : Path) : Bool :=
  c.added.any (·.same p) || (paths p && !c.deleted.any (·.same p))

theorem Changes.apply_between (old new : Index) :
    (Changes.between old new).apply old.containsPath = new.containsPath := by
  funext p
  have hany : ∀ l : List Path, l.any (·.same p) = true ↔
      ∃ q ∈ l, q.components = p.components := by
    simp [Path.same]
  have hadded : (Changes.between old new).added.any (·.same p) =
      (new.containsPath p && !old.containsPath p) := by
    rw [Bool.eq_iff_iff, hany, added_iff]
    simp
  have hdeleted : (Changes.between old new).deleted.any (·.same p) =
      (old.containsPath p && !new.containsPath p) := by
    rw [Bool.eq_iff_iff, hany, deleted_iff]
    simp
  rw [Changes.apply, hadded, hdeleted]
  cases old.containsPath p <;> cases new.containsPath p <;> rfl

section Tell

theorem tell_names (notice : Notice) (subscribers : List Subscriber) :
    (tell notice subscribers).notices.map Prod.fst = subscribers.map Subscriber.name := by
  induction subscribers generalizing notice with
  | nil => rfl
  | cons s rest ih => simp [tell, ih]

theorem tell_notice (notice : Notice) (subscribers : List Subscriber) :
    ∀ n ∈ (tell notice subscribers).notices,
      n.2.changes = notice.changes ∧ n.2.snapshot = notice.snapshot ∧
        n.2.published = notice.published := by
  induction subscribers generalizing notice with
  | nil => simp [tell]
  | cons s rest ih =>
      intro n hn
      simp only [tell, List.mem_cons] at hn
      rcases hn with rfl | hn
      · exact ⟨rfl, rfl, rfl⟩
      · have hrest := ih _ n hn
        exact hrest

/-- The tasks that subscribers attach to what they are told. -/
def attached (subscribers : List Subscriber) (notices : List (String × Notice)) : List Task :=
  (subscribers.zip notices).flatMap fun x => (x.1.react x.2.2).tasks

/-- The owners of those of the tasks that do not fail, one for each task. -/
def successful (tasks : List Task) : List String :=
  (tasks.filter fun t => !t.fails).map Task.owner

theorem successful_append (tasks tasks' : List Task) :
    successful (tasks ++ tasks') = successful tasks ++ successful tasks' := by
  simp [successful]

theorem tell_tasks (notice : Notice) (subscribers : List Subscriber) :
    (tell notice subscribers).tasks =
      attached subscribers (tell notice subscribers).notices := by
  induction subscribers generalizing notice with
  | nil => rfl
  | cons s rest ih => simp [tell, attached, ih]

end Tell

/-- A publication: the call whose pass published, the index it replaced and the new one, the
subscribers there were, and what they were told. -/
structure Publication where
  call : Nat
  old : Snapshot
  new : Snapshot
  subscribers : List Subscriber
  notices : List (String × Notice)

namespace Publication

/-- The difference that was published. -/
def changes (p : Publication) : Changes := Changes.between p.old.index p.new.index

/-- The tasks that were attached, those that fail among them. -/
def tasks (p : Publication) : List Task := attached p.subscribers p.notices

/-- The owners of the attached tasks that do not fail, one for each task. -/
def owners (p : Publication) : List String := successful p.tasks

/-- Every subscriber was told once, in order, of the difference and of the new index, which was the
published one; and there was a difference. -/
structure Announced (p : Publication) : Prop where
  names : p.notices.map Prod.fst = p.subscribers.map Subscriber.name
  told : ∀ n ∈ p.notices,
    n.2.changes = p.changes ∧ n.2.snapshot = p.new ∧ n.2.published = true
  changed : p.changes.isEmpty = false

end Publication

namespace Indexer

/-- The publication between two states of an indexer, if the published index was replaced. -/
def publicationTo? (ix ix' : Indexer) : Option Publication :=
  if ix'.snapshot.pass = ix.snapshot.pass then none
  else
    ix.running.map fun r =>
      { call := r.call
        old := ix.snapshot
        new := ix'.snapshot
        subscribers := ix.subscribers
        notices := ix'.notices.drop ix.notices.length }

/-- The publication that an action makes, if it replaces the published index. -/
def publication? (ix : Indexer) (a : Action) : Option Publication := ix.publicationTo? (ix.act a)

/-- The publications of a run. -/
def publications (ix : Indexer) : List Action → List Publication
  | [] => []
  | a :: rest => (ix.publication? a).toList ++ (ix.act a).publications rest

theorem publications_append (ix : Indexer) (before after : List Action) :
    ix.publications (before ++ after) =
      ix.publications before ++ (ix.run before).publications after := by
  induction before generalizing ix with
  | nil => rfl
  | cons a rest ih => simp [publications, ih, run_cons]

/-- The tasks that a pass which has published waits for. -/
def unfinished (ix : Indexer) : List Task :=
  match ix.running with
  | some { phase := .joining _ tasks, .. } => tasks
  | _ => []

/-- The tasks that are waited for in one state and not in the other any more. -/
def joinedTo (ix ix' : Indexer) : List Task := ix.unfinished.diff ix'.unfinished

/-- The tasks that an action takes off those that are waited for. -/
def joinedBy (ix : Indexer) (a : Action) : List Task := ix.joinedTo (ix.act a)

/-- The tasks that a run takes off those that are waited for, in that order. -/
def joinedTasks (ix : Indexer) : List Action → List Task
  | [] => []
  | a :: rest => ix.joinedBy a ++ (ix.act a).joinedTasks rest

theorem joinedTasks_append (ix : Indexer) (before after : List Action) :
    ix.joinedTasks (before ++ after) =
      ix.joinedTasks before ++ (ix.run before).joinedTasks after := by
  induction before generalizing ix with
  | nil => rfl
  | cons a rest ih => simp [joinedTasks, ih, run_cons]

theorem diff_append_perm {tasks tasks' : List Task} (h : tasks'.Sublist tasks) :
    (tasks.diff tasks' ++ tasks').Perm tasks :=
  List.perm_append_comm.trans
    (List.subperm_append_diff_self_of_count_le fun t _ => h.count_le t)

theorem diff_self (tasks : List Task) : tasks.diff tasks = [] := by
  have hperm := diff_append_perm (List.Sublist.refl tasks)
  simpa using hperm.length_eq

theorem diff_filter_perm (p : Task → Bool) (tasks : List Task) :
    (tasks.diff (tasks.filter p)).Perm (tasks.filter fun t => !p t) := by
  have hsplit : (tasks.filter (fun t => !p t) ++ tasks.filter p).Perm tasks :=
    List.perm_append_comm.trans (List.filter_append_perm p tasks)
  exact (List.perm_append_right_iff _).1
    ((diff_append_perm List.filter_sublist).trans hsplit.symm)

/-- The call of the pass that has published and waits for attached tasks. -/
def joiningCall? (ix : Indexer) : Option Nat :=
  match ix.running with
  | some { call, phase := .joining _ _, .. } => some call
  | _ => none

/-- The calls that came to a pass that published, in the order in which they were over. -/
def publishedCalls (ix : Indexer) : List Nat :=
  (ix.outcomes.filter fun x => x.2.published).map Prod.fst

/-- What an indexer has brought about: the calls that published and are over, the one that published
and is not, the tasks it waits for, and the owners of the tasks done. -/
structure Yield where
  finished : List Nat
  joining : Option Nat
  unfinished : List Task
  done : List String

/-- What an indexer has brought about. -/
def yield (ix : Indexer) : Yield where
  finished := ix.publishedCalls
  joining := ix.joiningCall?
  unfinished := ix.unfinished
  done := ix.works.map Prod.fst

/-- The publications, and the tasks that are waited for no more, that led to what there is. -/
structure Recorded (pubs : List Publication) (joined : List Task) (y : Yield) : Prop where
  calls : pubs.map Publication.call = y.finished ++ y.joining.toList
  tasks : (joined ++ y.unfinished).Perm (pubs.flatMap Publication.tasks)
  works : y.done.Perm (successful joined)

theorem yield_of_walking {ix : Indexer} {r : Running} {w : Walk} (running : ix.running = some r)
    (phase : r.phase = .walking w) :
    ix.yield = ⟨ix.publishedCalls, none, [], ix.works.map Prod.fst⟩ := by
  obtain ⟨call, project, plan, p⟩ := r
  cases phase
  simp [yield, joiningCall?, unfinished, running]

theorem yield_of_joining {ix : Indexer} {r : Running} {summary : Summary} {tasks : List Task}
    (running : ix.running = some r) (phase : r.phase = .joining summary tasks) :
    ix.yield = ⟨ix.publishedCalls, some r.call, tasks, ix.works.map Prod.fst⟩ := by
  obtain ⟨call, project, plan, p⟩ := r
  cases phase
  simp [yield, joiningCall?, unfinished, running]

theorem waits_yield {ix ix' : Indexer} (h : Waits ix ix') : ix'.yield = ix.yield := by
  rcases h with rfl | h
  · rfl
  · cases h with
    | release free | dismiss free =>
        simp [yield, publishedCalls, report, joiningCall?, unfinished, free, Outcome.published]
    | start free _ _ =>
        simp [yield, publishedCalls, joiningCall?, unfinished, free, begun]

/-- The publication that a walking pass makes of its index. -/
def publicationOf (ix : Indexer) (r : Running) (w : Walk) : Publication where
  call := r.call
  old := ix.snapshot
  new := ⟨r.plan.pass, w.index⟩
  subscribers := ix.subscribers
  notices := (ix.announced r w).notices

theorem publicationTo?_eq_none {ix ix' : Indexer} (h : ix'.snapshot = ix.snapshot) :
    ix.publicationTo? ix' = none := by
  simp [publicationTo?, h]

theorem publicationTo?_publish {ix : Indexer} (hix : ix.Sound) {r : Running} {w : Walk}
    (running : ix.running = some r) (phase : r.phase = .walking w) :
    ix.publicationTo? (ix.publish r w.index (r.summary w)) = some (ix.publicationOf r w) := by
  have hlt : ix.snapshot.pass < r.plan.pass :=
    hix.ordered.after _ (by simp [pending_of_walking running phase])
  have hne : r.plan.pass ≠ ix.snapshot.pass := by omega
  simp [publicationTo?, publicationOf, publish_eq, hne, running]

theorem tasks_publicationOf (ix : Indexer) (r : Running) (w : Walk) :
    (ix.publicationOf r w).tasks = (ix.announced r w).tasks := by
  simp only [Publication.tasks, publicationOf, announced, ← tell_tasks]

theorem announced_publicationOf {ix : Indexer} (hix : ix.Sound) {r : Running} {w : Walk}
    (running : ix.running = some r) (phase : r.phase = .walking w)
    (changed : (Changes.between r.plan.previous w.index).isEmpty = false) :
    (ix.publicationOf r w).Announced where
  names := tell_names _ _
  told := by
    intro n hn
    have htold := tell_notice _ _ n hn
    rw [hix.grounded.previous running phase] at htold
    exact htold
  changed := by
    rw [hix.grounded.previous running phase] at changed
    exact changed

/-- A pass waits for attached tasks only if it published. -/
def JoinsPublished (ix : Indexer) : Prop :=
  ∀ r summary tasks, ix.running = some r → r.phase = .joining summary tasks →
    summary.published = true

theorem event_joinsPublished {ix ix' : Indexer} {a : Action} (h : Event ix a ix')
    (hix : ix.JoinsPublished) : ix'.JoinsPublished := by
  have hturn : ∀ {ix₁ ix₂ : Indexer}, Turn ix₁ ix₂ → ix₂.JoinsPublished := by
    rintro ix₁ ix₂ (⟨free, _⟩ | ⟨free, _, _⟩ | ⟨_, _, _⟩) r summary tasks hr hphase
    · simp [report, free] at hr
    · simp [report, free] at hr
    · cases hr
      cases hphase
  cases h with
  | ask asks waits | stop waits =>
      rcases waits with rfl | h
      · exact hix
      · exact hturn h
  | turn h => exact hturn h
  | walk _ _ _ _ =>
      intro r summary tasks hr hphase
      cases hr
      cases hphase
  | publish _ _ _ _ changed =>
      intro r summary tasks hr hphase
      cases hr
      cases hphase
      simp [Running.summary, changed]
  | work running phase _ _ =>
      have hpublished := hix _ _ _ running phase
      intro r summary tasks hr hphase
      cases hr
      cases hphase
      exact hpublished
  | abandon _ _ _ _ => intro r summary tasks hr; cases hr
  | fail _ _ _ => intro r summary tasks hr; cases hr
  | unchanged _ _ _ _ _ => intro r summary tasks hr; cases hr
  | join _ _ => intro r summary tasks hr; cases hr
  | _ => exact hix

theorem endPass_yield {ix : Indexer} {r : Running} {w : Walk} {outcome : Outcome}
    (running : ix.running = some r) (phase : r.phase = .walking w)
    (silent : outcome.published = false) : (ix.endPass r outcome).yield = ix.yield := by
  rw [yield_of_walking running phase]
  simp [yield, joiningCall?, unfinished, endPass, publishedCalls, report, silent]

/-- What is recorded stays so where a step brings nothing about. -/
theorem Recorded.same {ix ix' : Indexer} {pubs : List Publication} {joined : List Task}
    (h : Recorded pubs joined ix.yield) (hyield : ix'.yield = ix.yield) :
    Recorded pubs (joined ++ ix.joinedTo ix') ix'.yield := by
  have hunfinished : ix'.unfinished = ix.unfinished := congrArg Yield.unfinished hyield
  rw [joinedTo, hunfinished, diff_self, List.append_nil, hyield]
  exact h

/-- What a step that publishes nothing does to what was recorded. -/
theorem recorded_silent {ix ix' : Indexer} {a : Action} (h : Event ix a ix')
    (hsnapshot : ix'.snapshot = ix.snapshot) (hix : ix.Sound) (hjoins : ix.JoinsPublished)
    {pubs : List Publication} {joined : List Task} (hrec : Recorded pubs joined ix.yield) :
    Recorded pubs (joined ++ ix.joinedTo ix') ix'.yield := by
  cases h with
  | ask asks waits | stop waits => exact hrec.same ((waits_yield waits).trans rfl)
  | turn h => exact hrec.same (waits_yield (.inr h))
  | refuse | configure =>
      refine hrec.same ?_
      simp [yield, publishedCalls, report, joiningCall?, unfinished, Outcome.published]
  | walk running phase _ _ =>
      refine hrec.same ?_
      rw [yield_of_walking running phase]
      rfl
  | abandon running phase | fail running phase => exact hrec.same (endPass_yield running phase rfl)
  | unchanged running phase _ _ same =>
      exact hrec.same
        (endPass_yield running phase (by simp [Outcome.published, Running.summary, same]))
  | @publish r w running phase _ _ _ =>
      have hlt : ix.snapshot.pass < r.plan.pass :=
        hix.ordered.after _ (by simp [pending_of_walking running phase])
      have hpass := congrArg Snapshot.pass hsnapshot
      rw [publish_eq] at hpass
      simp only at hpass
      omega
  | @work r summary tasks m works running phase _ done =>
      rw [yield_of_joining running phase] at hrec
      have htasks : ix.unfinished = tasks :=
        congrArg Yield.unfinished (yield_of_joining running phase)
      refine ⟨hrec.calls, ?_, ?_⟩
      · rw [joinedTo, htasks, List.append_assoc]
        exact ((diff_append_perm List.filter_sublist).append_left joined).trans hrec.tasks
      · -- The tasks that leave are those that nothing holds back, and they are done now.
        have hjoined : (tasks.diff (tasks.filter ix.isHeld)).Perm
            (tasks.filter fun t => !ix.isHeld t) := diff_filter_perm _ _
        have hdone := ((hjoined.filter fun t => !t.fails).map Task.owner).symm
        rw [← done] at hdone
        rw [joinedTo, htasks, successful_append]
        simp only [yield, List.map_append]
        exact hrec.works.append hdone
  | @join r summary running phase =>
      have hpublished := hjoins r summary [] running phase
      rw [joinedTo, show ix.unfinished = [] from
        congrArg Yield.unfinished (yield_of_joining running phase), List.nil_diff, List.append_nil]
      rw [yield_of_joining running phase] at hrec
      refine ⟨?_, hrec.tasks, hrec.works⟩
      have hcalls := hrec.calls
      simp only [Option.toList_some] at hcalls
      rw [hcalls]
      simp [yield, joiningCall?, endPass, publishedCalls, report, Outcome.published, hpublished]
  | _ => exact hrec.same rfl

theorem recorded_publish {ix : Indexer} {r : Running} {w : Walk} (running : ix.running = some r)
    (phase : r.phase = .walking w) {pubs : List Publication} {joined : List Task}
    (hrec : Recorded pubs joined ix.yield) :
    Recorded (pubs ++ [ix.publicationOf r w])
      (joined ++ ix.joinedTo (ix.publish r w.index (r.summary w)))
      (ix.publish r w.index (r.summary w)).yield := by
  rw [joinedTo, show ix.unfinished = [] from
    congrArg Yield.unfinished (yield_of_walking running phase), List.nil_diff, List.append_nil]
  rw [yield_of_walking running phase] at hrec
  refine ⟨?_, ?_, ?_⟩
  · rw [List.map_append, hrec.calls]
    simp [yield, joiningCall?, publishedCalls, publish_eq, publicationOf]
  · have htasks : joined.Perm (pubs.flatMap Publication.tasks) := by simpa using hrec.tasks
    rw [List.flatMap_append, List.flatMap_singleton, tasks_publicationOf, publish_eq]
    exact htasks.append_right _
  · rw [publish_eq]
    exact hrec.works

theorem successful_flatMap (pubs : List Publication) :
    successful (pubs.flatMap Publication.tasks) = pubs.flatMap Publication.owners := by
  induction pubs with
  | nil => rfl
  | cons p rest ih => rw [List.flatMap_cons, List.flatMap_cons, successful_append, ih]; rfl

/-- What a run of a new indexer has published. -/
structure History (ix : Indexer) (pubs : List Publication) (joined : List Task) : Prop where
  sound : ix.Sound
  joins : ix.JoinsPublished
  recorded : Recorded pubs joined ix.yield
  announced : ∀ p ∈ pubs, p.Announced
  paths : pubs.foldl (fun paths p => p.changes.apply paths) (fun _ => false) =
    ix.snapshot.index.containsPath

theorem History.act {ix : Indexer} {pubs : List Publication} {joined : List Task}
    (h : History ix pubs joined) (a : Action) :
    History (ix.act a) (pubs ++ (ix.publication? a).toList) (joined ++ ix.joinedBy a) := by
  have hevent := act_event ix a
  refine ⟨event_sound hevent h.sound, event_joinsPublished hevent h.joins, ?_, ?_, ?_⟩ <;>
    rcases event_silent_or_publish hevent with
      ⟨hsnapshot, _⟩ | ⟨r, w, running, phase, _, _, changed, hpublish⟩
  · rw [publication?, publicationTo?_eq_none hsnapshot, Option.toList_none, List.append_nil]
    exact recorded_silent hevent hsnapshot h.sound h.joins h.recorded
  · rw [publication?, joinedBy, hpublish, publicationTo?_publish h.sound running phase,
      Option.toList_some]
    exact recorded_publish running phase h.recorded
  · rw [publication?, publicationTo?_eq_none hsnapshot, Option.toList_none, List.append_nil]
    exact h.announced
  · rw [publication?, hpublish, publicationTo?_publish h.sound running phase, Option.toList_some]
    intro p hp
    rcases List.mem_append.1 hp with hp | hp
    · exact h.announced p hp
    · rw [List.mem_singleton.1 hp]
      exact announced_publicationOf h.sound running phase changed
  · rw [publication?, publicationTo?_eq_none hsnapshot, Option.toList_none, List.append_nil,
      hsnapshot]
    exact h.paths
  · rw [publication?, hpublish, publicationTo?_publish h.sound running phase, Option.toList_some,
      List.foldl_append, h.paths, publish_eq]
    exact Changes.apply_between ix.snapshot.index w.index

theorem history_run (config : Config) (files : Memory) (actions : List Action) :
    History ((new config files).run actions) ((new config files).publications actions)
      ((new config files).joinedTasks actions) := by
  induction actions using List.reverseRecOn with
  | nil =>
      refine ⟨sound_new config files, by simp [JoinsPublished, run_nil, new],
        ⟨?_, ?_, ?_⟩, ?_, ?_⟩
      · simp [publications, yield, publishedCalls, joiningCall?, run_nil, new]
      · simp [publications, joinedTasks, yield, unfinished, run_nil, new]
      · simp [joinedTasks, successful, yield, run_nil, new]
      · simp [publications]
      · rfl
  | append_singleton before a ih =>
      rw [run_append, publications_append, joinedTasks_append]
      simpa [publications, joinedTasks, run_cons, run_nil] using ih.act a

theorem mem_publishedCalls {ix : Indexer} (hix : ix.Accounted) {k : Nat} {o : Outcome}
    (ho : (k, o) ∈ ix.outcomes) : k ∈ ix.publishedCalls ↔ o.published = true := by
  simp only [publishedCalls, List.mem_map, List.mem_filter]
  constructor
  · rintro ⟨⟨k', o'⟩, ⟨hmem, hpublished⟩, rfl⟩
    rw [hix.outcome_unique ho hmem]
    exact hpublished
  · intro hpublished
    exact ⟨(k, o), ⟨ho, hpublished⟩, rfl⟩

theorem joiningCall?_mem {ix : Indexer} {k : Nat} (h : ix.joiningCall? = some k) :
    k ∈ ix.pendingCalls := by
  unfold joiningCall? at h
  split at h
  · rename_i running
    cases h
    simp [pendingCalls, running]
  · cases h

theorem unfinished_eq_nil {ix : Indexer} (h : ix.joiningCall? = none) : ix.unfinished = [] := by
  unfold joiningCall? at h
  unfold unfinished
  split at h
  · cases h
  · rfl

theorem nodup_published {ix : Indexer} (hix : ix.Accounted) :
    (ix.publishedCalls ++ ix.joiningCall?.toList).Nodup := by
  refine hix.nodup.sublist (List.Sublist.append ?_ ?_)
  · exact (List.filter_sublist).map _
  · cases hjoining : ix.joiningCall? with
    | none => simp
    | some k => simpa using joiningCall?_mem hjoining

theorem exists_joining {ix : Indexer} (h : ix.unfinished ≠ []) :
    ∃ r summary, ix.running = some r ∧ r.phase = .joining summary ix.unfinished := by
  unfold unfinished at h ⊢
  split at h
  · rename_i running
    exact ⟨_, _, running, rfl⟩
  · exact absurd rfl h

/-- As long as tasks are left, the pass goes on to wait, and those that are held back stay. -/
theorem event_unfinished {ix ix' : Indexer} {a : Action} (h : Event ix a ix')
    (hleft : ix.unfinished ≠ []) :
    ix'.joiningCall? = ix.joiningCall? ∧
      (ix'.unfinished = ix.unfinished ∨ ix'.unfinished = ix.unfinished.filter ix.isHeld) := by
  obtain ⟨r, summary, running, phase⟩ := exists_joining hleft
  have hjoining : ix.joiningCall? = some r.call :=
    congrArg Yield.joining (yield_of_joining running phase)
  have hnot : ∀ {r' w}, ix.running = some r' → r'.phase ≠ .walking w := by
    intro r' w hr hw
    obtain rfl := Option.some.inj (running.symm.trans hr)
    cases phase.symm.trans hw
  have hturn : ∀ {ix₁}, Turn ix₁ ix' → ix₁.running ≠ some r := by
    rintro ix₁ (⟨free, _⟩ | ⟨free, _, _⟩ | ⟨free, _, _⟩) hr
    all_goals cases free.symm.trans hr
  cases h with
  | ask asks waits | stop waits =>
      rcases waits with rfl | h
      · exact ⟨rfl, .inl rfl⟩
      · exact (hturn h running).elim
  | turn h => exact (hturn h running).elim
  | walk running' phase' | abandon running' phase' | fail running' phase'
  | unchanged running' phase' | publish running' phase' => exact absurd phase' (hnot running')
  | work running' phase' =>
      obtain rfl := Option.some.inj (running.symm.trans running')
      cases phase.symm.trans phase'
      exact ⟨by rw [hjoining]; rfl, .inr rfl⟩
  | join running' phase' =>
      obtain rfl := Option.some.inj (running.symm.trans running')
      exact absurd (Phase.joining.inj (phase.symm.trans phase')).2 hleft
  | _ => exact ⟨rfl, .inl rfl⟩

/-- A call that published comes to its outcome only when no task is left. -/
theorem Recorded.unfinished_of_reported {ix : Indexer} {pubs : List Publication}
    {joined : List Task} (h : Recorded pubs joined ix.yield) (hix : ix.Accounted)
    {p : Publication} (hp : p ∈ pubs) {a : Action} {o : Outcome}
    (hpending : (p.call, o) ∉ ix.outcomes) (hover : (p.call, o) ∈ (ix.act a).outcomes) :
    ix.unfinished = [] := by
  by_contra hleft
  have hnext := event_accounted (act_event ix a) hix
  have hmem : p.call ∈ ix.publishedCalls ++ ix.joiningCall?.toList :=
    h.calls ▸ List.mem_map_of_mem hp
  rcases List.mem_append.1 hmem with hfinished | hjoining
  · obtain ⟨⟨_, o'⟩, ho', heq⟩ := List.mem_map.1 hfinished
    have hold : (p.call, o') ∈ ix.outcomes := heq ▸ (List.mem_filter.1 ho').1
    rw [hnext.outcome_unique hover (event_outcomes (act_event ix a) hold)] at hpending
    exact hpending hold
  · have hjoined := (event_unfinished (act_event ix a) hleft).1
    rw [Option.mem_toList, ← hjoined] at hjoining
    exact hnext.not_mem_outcomes (joiningCall?_mem hjoining) o hover

/-- A task leaves those that are waited for only when nothing holds it back. -/
theorem isHeld_of_mem_joinedBy {ix : Indexer} {a : Action} {t : Task} (ht : t ∈ ix.joinedBy a) :
    ix.isHeld t = false := by
  have hleft : ix.unfinished ≠ [] := List.ne_nil_of_mem (List.diff_subset _ _ ht)
  rw [joinedBy, joinedTo] at ht
  rcases (event_unfinished (act_event ix a) hleft).2 with hsame | hheld
  · rw [hsame, diff_self] at ht
    cases ht
  · rw [hheld] at ht
    simpa using (List.mem_filter.1 ((diff_filter_perm _ _).subset ht)).2

/-- The published index and what subscribers are told agree. An action that makes no publication
leaves the published index as it is and tells nobody anything. Each call publishes at most once,
and of those that are over exactly those that completed with a new index. Each publication tells
every subscriber once, in order, of its difference to the index it replaced, which is not empty,
and of the index that is published then. The attached tasks, those that fail among them, are those
that are still waited for and those that are not any more; a task comes to these only when nothing
holds it back, and those of them that do not fail have been done. When a call that published comes
to its outcome, no task is left; so when all that published are over, exactly the attached tasks
have been done. The differences lead from no paths to those of the published index. -/
theorem published_index_agrees_with_notices (config : Config) (files : Memory)
    (actions : List Action) :
    let ix := (new config files).run actions
    let pubs := (new config files).publications actions
    let joined := (new config files).joinedTasks actions
    (∀ a, ix.publication? a = none →
        (ix.act a).snapshot = ix.snapshot ∧ (ix.act a).notices = ix.notices) ∧
      (pubs.map Publication.call).Nodup ∧
      (∀ k o, (k, o) ∈ ix.outcomes →
        (k ∈ pubs.map Publication.call ↔ o.published = true)) ∧
      (∀ p ∈ pubs, p.Announced) ∧
      (joined ++ ix.unfinished).Perm (pubs.flatMap Publication.tasks) ∧
      (∀ a, ∀ t ∈ ix.joinedBy a, ix.isHeld t = false) ∧
      (ix.works.map Prod.fst).Perm (successful joined) ∧
      (∀ p ∈ pubs, ∀ a o, (p.call, o) ∉ ix.outcomes →
        (p.call, o) ∈ (ix.act a).outcomes → ix.unfinished = []) ∧
      ((∀ p ∈ pubs, ∃ o, (p.call, o) ∈ ix.outcomes) →
        ix.unfinished = [] ∧ (ix.works.map Prod.fst).Perm (pubs.flatMap Publication.owners)) ∧
      pubs.foldl (fun paths p => p.changes.apply paths) (fun _ => false) =
        ix.snapshot.index.containsPath := by
  intro ix pubs joined
  have h : History ix pubs joined := history_run config files actions
  have haccounted := h.sound.accounted
  have hcalls : pubs.map Publication.call = ix.publishedCalls ++ ix.joiningCall?.toList :=
    h.recorded.calls
  refine ⟨?_, ?_, ?_, h.announced, h.recorded.tasks, fun _ _ => isHeld_of_mem_joinedBy,
    h.recorded.works, ?_, ?_, h.paths⟩
  · intro a hnone
    rcases event_silent_or_publish (act_event ix a) with
      hsilent | ⟨r, w, running, phase, _, _, _, hpublish⟩
    · exact hsilent
    · rw [publication?, hpublish, publicationTo?_publish h.sound running phase] at hnone
      cases hnone
  · rw [hcalls]
    exact nodup_published haccounted
  · intro k o ho
    rw [hcalls, ← mem_publishedCalls haccounted ho, List.mem_append]
    refine or_iff_left ?_
    intro hjoining
    exact haccounted.not_mem_outcomes (joiningCall?_mem (by simpa using hjoining)) o ho
  · exact fun p hp a o => h.recorded.unfinished_of_reported haccounted hp
  · intro hover
    -- A pass that waits for tasks is not over, so none is left.
    have hidle : ix.joiningCall? = none := by
      by_contra hsome
      obtain ⟨k, hk⟩ := Option.ne_none_iff_exists'.1 hsome
      have hmem : k ∈ pubs.map Publication.call := by
        rw [hcalls, hk]
        simp
      obtain ⟨p, hp, rfl⟩ := List.mem_map.1 hmem
      obtain ⟨o, ho⟩ := hover p hp
      exact haccounted.not_mem_outcomes (joiningCall?_mem hk) o ho
    have hnone := unfinished_eq_nil hidle
    have htasks : joined.Perm (pubs.flatMap Publication.tasks) := by
      simpa [yield, hnone] using h.recorded.tasks
    refine ⟨hnone, h.recorded.works.trans ?_⟩
    rw [← successful_flatMap]
    exact (htasks.filter _).map _

/-- A task that fails, and that waits for a read that is held back. -/
def heldFailure : Task := { owner := "s", hold := some ⟨"/g"⟩, fails := true }

/-- A pass publishes, and the only subscriber attaches that task. -/
def awaitingFailure : List Action :=
  [.write ⟨"/p/main.asm"⟩ "", .gate ⟨"/g"⟩,
    .subscribe ⟨"s", fun _ => { tasks := [heldFailure] }⟩,
    .call (.initial ⟨"/p"⟩ {})] ++ List.replicate 7 .advance

theorem published_index_agrees_with_notices_awaitingFailure :
    ((new {} {}).run awaitingFailure).unfinished = [heldFailure] ∧
      ((new {} {}).run awaitingFailure).isHeld heldFailure = true ∧
      ∀ a o, (0, o) ∉ (((new {} {}).run awaitingFailure).act a).outcomes := by
  have hleft : ((new {} {}).run awaitingFailure).unfinished = [heldFailure] := by decide +kernel
  have hcalls : ((new {} {}).publications awaitingFailure).map Publication.call = [0] := by
    decide +kernel
  have hpending : ((new {} {}).run awaitingFailure).outcomes.isEmpty = true := by decide +kernel
  refine ⟨hleft, by decide +kernel, fun a o hover => ?_⟩
  obtain ⟨_, _, _, _, _, _, _, hreported, _⟩ :=
    published_index_agrees_with_notices {} {} awaitingFailure
  obtain ⟨p, hp, hcall⟩ : ∃ p ∈ (new {} {}).publications awaitingFailure, p.call = 0 :=
    List.mem_map.1 (by rw [hcalls]; exact List.mem_singleton_self 0)
  have hnew : (p.call, o) ∉ ((new {} {}).run awaitingFailure).outcomes := by
    rw [List.isEmpty_iff.1 hpending]
    exact List.not_mem_nil
  have hnone := hreported p hp a o hnew (by rw [hcall]; exact hover)
  rw [hleft] at hnone
  cases hnone

end Indexer

end AsmIndex

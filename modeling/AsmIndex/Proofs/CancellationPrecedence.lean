import AsmIndex.Proofs.PassTrace
import AsmIndex.Proofs.Settling

/-!
What becomes of a pass that is cancelled before it has published. Once it is cancelled, its walk
gives up on coming to a file and before each import, so that it soon ends whatever is read on the
way; and the pass ends as cancelled. There is one exception: the walk has asked for its entry file
and not got it yet. If the entry file then cannot be had, the pass fails.
-/

namespace AsmIndex

namespace Memory

theorem get?_remove (m : Memory) (path : Path) : (m.remove path).files.get? path = none := by
  rw [remove, OrderedMap.get?_erase, if_pos Std.ReflCmp.compare_self]

theorem read_remove (m : Memory) (path : Path) :
    (m.remove path).read path = .error (.unavailable path) := by
  rw [read, get?_remove]
  split <;> rfl

theorem modified_remove (m : Memory) (path : Path) :
    (m.remove path).view.modified path = .error (.unavailable path) := by
  simp only [view, modified?, get?_remove, Option.map_none]

end Memory

namespace Walk

/-- The walk has asked for its entry file, and has not got it. -/
def awaitsEntry (w : Walk) : Bool :=
  match w.stage with
  | .stamp _ _ | .read _ _ _ | .leave (some _) => w.stack.isEmpty
  | .ended (.unreadable _) => true
  | _ => false

/-- A bound on the steps that a cancelled walk makes until it ends. -/
def remaining (w : Walk) : Nat :=
  match w.stage with
  | .enter _ _ => 1
  | .stamp _ _ => 2 * w.stack.length + 4
  | .read _ _ _ => 2 * w.stack.length + 3
  | .follow _ => 2 * w.stack.length + 2
  | .probe _ _ candidates => 2 * w.stack.length + 3 + candidates.length
  | .leave _ => 2 * w.stack.length + 1
  | .ended _ => 0

section Cancelled

variable (plan : Plan) (view : FileView) {w : Walk}

/-- A cancelled walk gives up, or it neither comes to a file nor goes on to an import. -/
theorem step_cancelled (w : Walk) :
    w.step plan view true = { w with stage := .ended .cancelled } ∨
      (∀ path symbols, w.stage ≠ .enter path symbols) ∧
        ∀ frame, w.stage = .follow frame → frame.pending = [] := by
  cases hstage : w.stage with
  | enter path symbols => exact .inl (by simp [step, hstage])
  | follow frame =>
      cases hpending : frame.pending with
      | nil =>
          refine .inr ⟨by simp, ?_⟩
          rintro _ ⟨⟩
          exact hpending
      | cons r pending => exact .inl (by simp [step, hstage, hpending])
  | _ => exact .inr ⟨by simp, by simp⟩

theorem awaitsEntry_step (h : w.awaitsEntry = false) :
    (w.step plan view true).awaitsEntry = false := by
  rcases step_cancelled plan view w with hquit | ⟨henter, hfollow⟩
  · rw [hquit]
    rfl
  · have hmove := step_move plan view true w
    generalize w.step plan view true = w' at hmove
    cases hmove with
    | quitEnter stage | known stage | reuseLive stage | scanLive stage | askTime stage =>
        exact absurd stage (henter _ _)
    | noTime stage | askText stage | noText stage =>
        simpa [awaitsEntry, stage] using h
    | back stage inner => simp [leave, inner, awaitsEntry]
    | fail stage outer => simp [awaitsEntry, stage, outer] at h
    | rest stage => exact h
    | _ => rfl

theorem awaitsEntry_of_unreadable {e : FileError} (h : w.ending? = some (.unreadable e)) :
    w.awaitsEntry = true := by
  simp [awaitsEntry, stage_of_ending h]

theorem remaining_step (h : w.ending? = none) :
    (w.step plan view true).remaining < w.remaining := by
  rcases step_cancelled plan view w with hquit | ⟨henter, hfollow⟩
  · rw [hquit]
    cases hstage : w.stage with
    | ended ending => simp [ending?, hstage] at h
    | _ => simp [remaining, hstage]
  · have hmove := step_move plan view true w
    generalize w.step plan view true = w' at hmove
    cases hmove with
    | quitEnter stage | known stage | reuseLive stage | scanLive stage | askTime stage =>
        exact absurd stage (henter _ _)
    | quitFollow stage more => exact absurd (hfollow _ stage) more
    | look stage more => simp [hfollow _ stage] at more
    | rest stage => simp [ending?, stage] at h
    | back stage inner =>
        simp only [leave, inner, remaining, stage, List.length_cons]
        omega
    | meet stage | descend stage | skip stage =>
        simp only [remaining, stage, List.length_cons]
        omega
    | noTime stage | askText stage | noText stage | reuseStored stage | scanStored stage
    | missing stage | keep stage | replace stage | finish stage | fail stage =>
        simp [remaining, stage, reuse, register, tokenize, Walk.missing]

end Cancelled

end Walk

/-- Of two passes that have not published, the one asked for first is cancelled. -/
theorem Ledger.Ordered.cancelled_of_lt {l : Ledger} (h : l.Ordered) {id j : Nat}
    (hid : id ∈ l.pending) (hj : j ∈ l.pending) (hlt : id < j) : id ∈ l.cancelled := by
  refine (h.current id hid).resolve_right fun hactive => ?_
  have hlatest := h.latest id hactive
  have hle := h.bounded j hj
  omega

/-- The walk of a pass that has not published. -/
def Running.walk? (r : Running) : Option Walk :=
  match r.phase with
  | .walking w => some w
  | .joining _ _ => none

/-- The job is the pass `j` that the call `k` asked for. -/
def Job.isPass (k j : Nat) : Job → Bool
  | .pass call id _ _ => call == k && id == j
  | .stop _ => false

namespace Indexer

/-- The walk of the pass `j` that the call `k` asked for, while it is executed. -/
def walkOf? (ix : Indexer) (k j : Nat) : Option Walk :=
  ix.running.bind fun r => if r.call = k ∧ r.plan.pass = j then r.walk? else none

/-- The pass `j` that the call `k` asked for waits for its turn, or walks. -/
def unpublished (ix : Indexer) (k j : Nat) : Bool :=
  (ix.walkOf? k j).isSome || ix.queue.any (Job.isPass k j)

/-- The pass is executed, and its entry file has been asked for but not got. -/
def awaitsEntry (ix : Indexer) (k j : Nat) : Bool := (ix.walkOf? k j).any Walk.awaitsEntry

/-- How far a cancelled pass has come that had not published when it was cancelled. Where it was
`safe`, it cannot fail. -/
inductive Doomed (k j : Nat) (safe : Prop) (ix : Indexer) : Prop
  | waiting {project request} (queued : .pass k j project request ∈ ix.queue)
      (cancelled : j ∈ ix.cancelled)
  | walking {r w} (running : ix.running = some r) (phase : r.phase = .walking w)
      (call : r.call = k) (pass : r.plan.pass = j) (cancelled : j ∈ ix.cancelled)
      (past : safe → w.awaitsEntry = false)
  | cancelled (reported : (k, .cancelled) ∈ ix.outcomes)
  | failed {entry e} (reported : (k, .failed (.unreadableEntry entry e)) ∈ ix.outcomes)
      (early : ¬ safe)

section Doomed

variable {k j : Nat} {safe : Prop} {ix ix' : Indexer} {a : Action}

theorem walkOf?_eq_some {w : Walk} (h : ix.walkOf? k j = some w) :
    ∃ r, ix.running = some r ∧ r.phase = .walking w ∧ r.call = k ∧ r.plan.pass = j := by
  obtain ⟨r, running, hr⟩ := Option.bind_eq_some_iff.1 h
  split at hr
  · rename_i hpass
    unfold Running.walk? at hr
    split at hr
    · rename_i phase
      cases hr
      exact ⟨r, running, phase, hpass⟩
    · cases hr
  · cases hr

theorem unpublished_cases (h : ix.unpublished k j = true) :
    (∃ w, ix.walkOf? k j = some w) ∨
      ∃ project request, Job.pass k j project request ∈ ix.queue := by
  rw [unpublished, Bool.or_eq_true, Option.isSome_iff_exists, List.any_eq_true] at h
  refine h.imp_right ?_
  rintro ⟨job, hjob, hpass⟩
  cases job with
  | stop call => cases hpass
  | pass call id project request =>
      obtain ⟨rfl, rfl⟩ : call = k ∧ id = j := by simpa [Job.isPass] using hpass
      exact ⟨project, request, hjob⟩

theorem doomed_of_unpublished (h : ix.unpublished k j = true) (hj : j ∈ ix.cancelled) :
    Doomed k j (ix.awaitsEntry k j = false) ix := by
  rcases unpublished_cases h with ⟨w, hw⟩ | ⟨project, request, queued⟩
  · obtain ⟨r, running, phase, hcall, pass⟩ := walkOf?_eq_some hw
    refine .walking running phase hcall pass hj fun hsafe => ?_
    simpa [awaitsEntry, hw] using hsafe
  · exact .waiting queued hj

/-- A pass that is cancelled stays so. -/
theorem event_cancelled (h : Event ix a ix') (hj : j ∈ ix.cancelled) : j ∈ ix'.cancelled := by
  cases h with
  | ask asks waits | stop waits =>
      rw [(waits_frame waits).2.2.2.2]
      exact List.mem_append_right _ hj
  | turn h => rwa [(waits_frame (.inr h)).2.2.2.2]
  | revoke => exact List.mem_cons_of_mem _ hj
  | publish =>
      rw [publish_eq]
      dsimp only
      split
      · exact List.mem_cons_of_mem _ hj
      · exact hj
  | _ => exact hj

theorem waits_doomed (h : Waits ix ix') {project : Project} {request : Request}
    (queued : .pass k j project request ∈ ix.queue) (hj : j ∈ ix.cancelled) :
    Doomed k j safe ix' := by
  rcases h with rfl | h
  · exact .waiting queued hj
  · cases h with
    | release free next =>
        rw [next, List.mem_cons] at queued
        exact .waiting (queued.resolve_left (by simp)) hj
    | dismiss free next =>
        rw [next, List.mem_cons] at queued
        rcases queued with heq | hrest
        · cases heq
          exact .cancelled (List.mem_append_right _ (List.mem_singleton_self _))
        · exact .waiting hrest hj
    | start free next valid =>
        rw [next, List.mem_cons] at queued
        rcases queued with heq | hrest
        · cases heq
          exact absurd hj (isCancelled_eq_false_iff.1 valid)
        · exact .waiting hrest hj

theorem doomed_waiting (h : Event ix a ix') {project : Project} {request : Request}
    (queued : .pass k j project request ∈ ix.queue) (hj : j ∈ ix.cancelled) :
    Doomed k j safe ix' := by
  have hj' := event_cancelled h hj
  cases h with
  | ask asks waits | stop waits =>
      exact waits_doomed waits (List.mem_append_left _ queued) (List.mem_append_right _ hj)
  | turn h => exact waits_doomed (.inr h) queued hj
  | _ => exact .waiting queued hj'

theorem doomed_walking (h : Event ix a ix') {r : Running} {w : Walk} (running : ix.running = some r)
    (phase : r.phase = .walking w) (hcall : r.call = k) (pass : r.plan.pass = j)
    (hj : j ∈ ix.cancelled) (past : safe → w.awaitsEntry = false) : Doomed k j safe ix' := by
  have hj' := event_cancelled h hj
  have hcancelled : ix.isCancelled r.plan.pass = true := by simpa [isCancelled, pass] using hj
  cases h with
  | ask asks waits | stop waits =>
      rw [waits_running waits running] at hj' ⊢
      exact .walking running phase hcall pass hj' past
  | turn h => cases h <;> simp_all
  | walk running' phase' =>
      cases running.symm.trans running'
      cases phase.symm.trans phase'
      refine .walking rfl rfl hcall pass hj' fun hsafe => ?_
      rw [hcancelled]
      exact Walk.awaitsEntry_step _ _ (past hsafe)
  | abandon running' =>
      cases running.symm.trans running'
      exact .cancelled (hcall ▸ mem_endPass _ _ _)
  | fail running' phase' ended =>
      cases running.symm.trans running'
      cases phase.symm.trans phase'
      refine .failed (hcall ▸ mem_endPass _ _ _) fun hsafe => ?_
      have hawaits := past hsafe
      rw [Walk.awaitsEntry_of_unreadable ended] at hawaits
      cases hawaits
  | unchanged running' phase' _ valid | publish running' phase' _ valid =>
      cases running.symm.trans running'
      simp [hcancelled] at valid
  | work running' phase' | join running' phase' =>
      cases running.symm.trans running'
      cases phase.symm.trans phase'
  | _ => exact .walking running phase hcall pass hj' past

theorem event_doomed (h : Event ix a ix') (hdoomed : Doomed k j safe ix) : Doomed k j safe ix' := by
  cases hdoomed with
  | waiting queued hj => exact doomed_waiting h queued hj
  | walking running phase hcall pass hj past =>
      exact doomed_walking h running phase hcall pass hj past
  | cancelled reported => exact .cancelled (event_outcomes h reported)
  | failed reported early => exact .failed (event_outcomes h reported) early

/-- What may become of the call. -/
theorem Doomed.outcome (h : Doomed k j safe ix) (hix : ix.Accounted) {o : Outcome}
    (ho : (k, o) ∈ ix.outcomes) :
    o = .cancelled ∨ ¬ safe ∧ ∃ entry e, o = .failed (.unreadableEntry entry e) := by
  cases h with
  | waiting queued =>
      refine absurd ho (hix.not_mem_outcomes ?_ o)
      exact List.mem_append_right _ (List.mem_map.2 ⟨_, queued, rfl⟩)
  | walking running _ hcall =>
      exact absurd ho (hix.not_mem_outcomes (by simp [pendingCalls, running, hcall]) o)
  | cancelled reported => exact .inl (hix.outcome_unique ho reported)
  | failed reported early => exact .inr ⟨early, _, _, hix.outcome_unique ho reported⟩

/-- An executed pass that ends leaves the state that belongs to its outcome. -/
theorem state_of_outcome (h : Event ix a ix') (hix : ix.Sound) {r : Running} {o : Outcome}
    (running : ix.running = some r) (ho : (r.call, o) ∈ ix'.outcomes) :
    ix'.state = stateAfter o := by
  have hix' := event_sound h hix
  -- as long as the pass is executed, it has no outcome
  have hexecuted : ∀ r', ix'.running = some r' → r'.call = r.call →
      ix'.state = stateAfter o := by
    intro r' running' hcall
    refine absurd ho (hix'.accounted.not_mem_outcomes ?_ o)
    simp [pendingCalls, running', hcall]
  cases h with
  | ask asks waits | stop waits =>
      exact hexecuted r (by rw [waits_running waits running]; exact running) rfl
  | turn h => cases h <;> simp_all
  | walk running' | publish running' | work running' =>
      cases running.symm.trans running'
      exact hexecuted _ rfl rfl
  | abandon running' | fail running' | unchanged running' | join running' =>
      cases running.symm.trans running'
      rw [hix'.accounted.outcome_unique ho (mem_endPass _ _ _)]
      rfl
  | _ => exact hexecuted r running rfl

end Doomed

section Return

variable {k j : Nat} {safe : Prop} {ix : Indexer}

theorem frees_cancelled {r : Running} {w : Walk} (running : ix.running = some r)
    (phase : r.phase = .walking w) (hj : r.plan.pass ∈ ix.cancelled)
    (hopen : ix.files.gated = OrderedMap.empty) : ix.Frees := by
  induction hremaining : w.remaining using Nat.strongRecOn generalizing ix r w with
  | ind n ih =>
      cases hending : w.ending? with
      | some ending => exact frees_ended running phase hending hopen
      | none =>
          have hcancelled : ix.isCancelled r.plan.pass = true := by simpa [isCancelled] using hj
          have hact := act_advance_walk running phase hending (w.not_heldBack hopen)
          rw [hcancelled] at hact
          refine .step running (ih _ ?_ (by rw [hact]) rfl ?_ ((gated_advance ix).trans hopen) rfl)
          · rw [← hremaining]
            exact Walk.remaining_step _ _ hending
          · exact event_cancelled (act_event ix .advance) hj

/-- Where nothing runs, a cancelled pass that waits is dismissed when its turn comes; so is every
pass before it. -/
theorem dismissed {project : Project} {request : Request} (hix : ix.Sound)
    (idle : ix.running = none) (queued : .pass k j project request ∈ ix.queue)
    (hj : j ∈ ix.cancelled) :
    ∃ n, (k, .cancelled) ∈ (ix.run (List.replicate n .advance)).outcomes := by
  generalize hqueue : ix.queue = queue at queued
  induction queue generalizing ix with
  | nil => cases queued
  | cons job rest ih =>
      have hix' := event_sound (act_event ix .advance) hix
      have hj' := event_cancelled (act_event ix .advance) hj
      have hrest := queue_advance_idle idle hqueue
      have hact : ix.act .advance = { ix with queue := rest }.grant job := by
        simp [act, advance?, idle, hqueue]
      have hgone : (ix.act .advance).running = none →
          .pass k j project request ∈ rest →
          ∃ n, (k, .cancelled) ∈ (ix.run (List.replicate n .advance)).outcomes := by
        intro hidle hmem
        obtain ⟨n, hn⟩ := ih hix' hidle hj' hrest hmem
        exact ⟨n + 1, hn⟩
      cases job with
      | stop call =>
          refine hgone ?_ ((List.mem_cons.1 queued).resolve_left (by simp))
          rw [hact]
          exact idle
      | pass call id project' request' =>
          have hpending : ix.ledger.pending = id :: rest.filterMap Job.pass? := by
            simp [ledger, idle, hqueue, Job.pass?]
          have hid : id ∈ ix.cancelled := by
            rcases List.mem_cons.1 queued with heq | hmem
            · cases heq
              exact hj
            · have hlater : j ∈ rest.filterMap Job.pass? :=
                List.mem_filterMap.2 ⟨_, hmem, rfl⟩
              have hlt := (List.pairwise_cons.1 (hpending ▸ hix.ordered.sorted)).1 j hlater
              exact hix.ordered.cancelled_of_lt (by simp [hpending])
                (by simp [hpending, hlater]) hlt
          have hdismissed : ix.act .advance = { ix with queue := rest }.report call .cancelled := by
            rw [hact, grant, if_pos (by simpa [isCancelled] using hid)]
          rcases List.mem_cons.1 queued with heq | hmem
          · cases heq
            refine ⟨1, ?_⟩
            rw [List.replicate_one, run_cons, run_nil, hdismissed]
            exact List.mem_append_right _ (List.mem_singleton_self _)
          · refine hgone ?_ hmem
            rw [hdismissed]
            exact idle

/-- What runs comes to its end, if the cancelled pass is not over already. -/
theorem Doomed.frees (h : Doomed k j safe ix) (hix : ix.Sound)
    (hopen : ix.files.gated = OrderedMap.empty) :
    (∃ o, (k, o) ∈ ix.outcomes) ∨ ix.Frees := by
  cases h with
  | cancelled reported => exact .inl ⟨_, reported⟩
  | failed reported => exact .inl ⟨_, reported⟩
  | walking running phase _ pass hj =>
      exact .inr (frees_cancelled running phase (pass ▸ hj) hopen)
  | waiting queued hj =>
      right
      cases hrunning : ix.running with
      | none => exact frees_idle hrunning
      | some r =>
          cases hphase : r.phase with
          | joining summary tasks => exact frees_joining hrunning hphase hopen
          | walking w =>
              have hpending := pending_of_walking hrunning hphase
              have hlater : j ∈ ix.queue.filterMap Job.pass? :=
                List.mem_filterMap.2 ⟨_, queued, rfl⟩
              have hlt := (List.pairwise_cons.1 (hpending ▸ hix.ordered.sorted)).1 j hlater
              refine frees_cancelled hrunning hphase ?_ hopen
              exact hix.ordered.cancelled_of_lt (by simp [hpending])
                (by simp [hpending, hlater]) hlt

theorem Doomed.returns_idle (h : Doomed k j safe ix) (hix : ix.Sound) (idle : ix.running = none) :
    ∃ n o, (k, o) ∈ (ix.run (List.replicate n .advance)).outcomes := by
  cases h with
  | waiting queued hj =>
      obtain ⟨n, hn⟩ := dismissed hix idle queued hj
      exact ⟨n, _, hn⟩
  | walking running => cases running.symm.trans idle
  | cancelled reported => exact ⟨0, _, reported⟩
  | failed reported => exact ⟨0, _, reported⟩

/-- A cancelled pass returns. -/
theorem Doomed.returns (h : Doomed k j safe ix) (hix : ix.Sound)
    (hopen : ix.files.gated = OrderedMap.empty) :
    ∃ n o, (k, o) ∈ (ix.run (List.replicate n .advance)).outcomes := by
  rcases h.frees hix hopen with ⟨o, ho⟩ | ⟨n, hidle, -⟩
  · exact ⟨0, o, ho⟩
  · have hdoomed := run_preserves event_doomed h (List.replicate n .advance)
    obtain ⟨m, o, ho⟩ := hdoomed.returns_idle (run_sound hix _) hidle
    rw [← run_append, List.replicate_append_replicate] at ho
    exact ⟨n + m, o, ho⟩

end Return

section Failure

variable {k : Nat} {ix : Indexer} {r : Running} {w : Walk}

/-- Something can happen after which the call has failed on its entry file. -/
def CanFail (ix : Indexer) (k : Nat) : Prop :=
  ∃ after entry e, (k, .failed (.unreadableEntry entry e)) ∈ (ix.run after).outcomes

theorem CanFail.act {a : Action} (h : (ix.act a).CanFail k) : ix.CanFail k := by
  obtain ⟨after, entry, e, ho⟩ := h
  exact ⟨a :: after, entry, e, ho⟩

theorem canFail_ended {e : FileError} (running : ix.running = some r) (phase : r.phase = .walking w)
    (stage : w.stage = .ended (.unreadable e)) : ix.CanFail r.call := by
  refine ⟨[.advance], r.project.entry, e, ?_⟩
  rw [run_cons, run_nil, act_advance_ended running phase (by rw [Walk.ending?, stage])]
  exact mem_endPass _ _ _

theorem running_advance (running : ix.running = some r) (phase : r.phase = .walking w)
    (going : w.ending? = none) (free : ¬ w.HeldBack ix.files) :
    (ix.act .advance).running = some { r with
      phase := .walking (w.step r.plan ix.files.view (ix.isCancelled r.plan.pass)) } := by
  rw [act_advance_walk running phase going free]

theorem canFail_leave {e : FileError} (running : ix.running = some r) (phase : r.phase = .walking w)
    (stage : w.stage = .leave (some e)) (outer : w.stack = []) : ix.CanFail r.call := by
  have hfree : ¬ w.HeldBack ix.files := by
    rintro ⟨_, _, _, hread, _⟩
    cases stage.symm.trans hread
  have hrunning := running_advance running phase (by rw [Walk.ending?, stage]) hfree
  have hended : ∀ cancelled,
      (w.step r.plan ix.files.view cancelled).stage = .ended (.unreadable e) := by
    intro cancelled
    simp [Walk.step, stage, Walk.leave, outer]
  exact (canFail_ended hrunning rfl (hended _)).act

theorem canFail_read {path : Path} {symbols : Symbols} {time : Nat} (running : ix.running = some r)
    (phase : r.phase = .walking w) (stage : w.stage = .read path symbols time)
    (outer : w.stack = []) : ix.CanFail r.call := by
  let ix₁ := (ix.act (.remove path)).act .openGate
  have running₁ : ix₁.running = some r := running
  have hfree : ¬ w.HeldBack ix₁.files := by
    rintro ⟨_, _, _, _, hgate⟩
    cases hgate
  have hrunning := running_advance running₁ phase (by rw [Walk.ending?, stage]) hfree
  have hread : ix₁.files.view.read path = .error (.unavailable path) :=
    Memory.read_remove ix.files path
  have hleave : ∀ cancelled, w.step r.plan ix₁.files.view cancelled =
      { w with stage := .leave (some (.unavailable path)) } := by
    intro cancelled
    simp only [Walk.step, stage, hread, Walk.read]
  rw [hleave] at hrunning
  exact (canFail_leave hrunning rfl rfl outer).act.act.act

theorem canFail_stamp {path : Path} {symbols : Symbols} (running : ix.running = some r)
    (phase : r.phase = .walking w) (stage : w.stage = .stamp path symbols)
    (outer : w.stack = []) : ix.CanFail r.call := by
  let ix₁ := ix.act (.remove path)
  have running₁ : ix₁.running = some r := running
  have hfree : ¬ w.HeldBack ix₁.files := by
    rintro ⟨_, _, _, hread, _⟩
    cases stage.symm.trans hread
  have hrunning := running_advance running₁ phase (by rw [Walk.ending?, stage]) hfree
  have hmodified : ix₁.files.view.modified path = .error (.unavailable path) :=
    Memory.modified_remove ix.files path
  have hleave : ∀ cancelled, w.step r.plan ix₁.files.view cancelled =
      { w with stage := .leave (some (.unavailable path)) } := by
    intro cancelled
    simp only [Walk.step, stage, hmodified, Walk.stamp]
  rw [hleave] at hrunning
  exact (canFail_leave hrunning rfl rfl outer).act.act

theorem canFail_of_awaitsEntry {j : Nat} (h : ix.awaitsEntry k j = true) : ix.CanFail k := by
  obtain ⟨w, hw, hawaits⟩ := (Option.any_eq_true _ _).1 h
  obtain ⟨r, running, phase, rfl, -⟩ := walkOf?_eq_some hw
  unfold Walk.awaitsEntry at hawaits
  split at hawaits
  · rename_i stage
    exact canFail_stamp running phase stage (List.isEmpty_iff.1 hawaits)
  · rename_i stage
    exact canFail_read running phase stage (List.isEmpty_iff.1 hawaits)
  · rename_i stage
    exact canFail_leave running phase stage (List.isEmpty_iff.1 hawaits)
  · rename_i stage
    exact canFail_ended running phase stage
  · cases hawaits

end Failure

section Calls

variable {k j : Nat} {ix : Indexer}

theorem enqueue_busy (busy : ix.running ≠ none ∨ ix.queue ≠ []) (job : Job) :
    ix.enqueue job = { ix with queue := ix.queue ++ [job] } := by
  refine if_neg fun hidle => ?_
  simp only [Bool.and_eq_true, Option.isNone_iff_eq_none, List.isEmpty_iff] at hidle
  exact busy.elim (absurd hidle.1) (absurd hidle.2)

/-- A call has cancelled the active pass and waits behind others. -/
structure Supersedes (ix ix' : Indexer) : Prop where
  queue : ∃ job, ix'.queue = ix.queue ++ [job]
  running : ix'.running = ix.running
  cancelled : ix'.cancelled = ix.active.toList ++ ix.cancelled

theorem requestPass_supersedes (busy : ix.running ≠ none ∨ ix.queue ≠ []) (config : Config)
    (project : Project) (count call : Nat) (request : Request) :
    Supersedes ix ({ ix with config, project := some project, callCount := count }.requestPass
      call request) := by
  simp only [requestPass, cancelActive]
  rw [enqueue_busy (by exact busy)]
  exact ⟨⟨_, rfl⟩, rfl, rfl⟩

theorem call_supersedes (busy : ix.running ≠ none ∨ ix.queue ≠ []) {c : Call}
    (hc : c = .stop ∨ (ix.act (.call c)).passCount = ix.passCount + 1) :
    Supersedes ix (ix.act (.call c)) := by
  cases c with
  | stop =>
      simp only [act, call]
      rw [enqueue_busy (by exact busy)]
      exact ⟨⟨_, rfl⟩, rfl, rfl⟩
  | initial directory request => exact requestPass_supersedes busy _ _ _ _ _
  | parse request =>
      cases hproject : ix.project with
      | none => simp [act, call, requestPass, hproject, report] at hc
      | some project =>
          have h := requestPass_supersedes busy ix.config project (ix.callCount + 1) ix.callCount
            request
          rw [← hproject] at h
          exact h
  | setConfig config =>
      simp only [act, call, changeConfig] at hc ⊢
      split at hc
      · simp [report] at hc
      · rename_i hchanged
        rw [if_neg hchanged]
        split at hc
        · simp [report] at hc
        · rename_i request hlast
          rw [hlast]
          cases hproject : ix.project with
          | none => simp [requestPass, hproject, report] at hc
          | some project => exact requestPass_supersedes busy _ _ _ _ _

/-- A pass that has not published is cancelled by every call that asks for a pass, and by every
call to stop. -/
theorem unpublished_call (hix : ix.Sound) (pending : ix.unpublished k j = true) {c : Call}
    (hc : c = .stop ∨ (ix.act (.call c)).passCount = ix.passCount + 1) :
    (ix.act (.call c)).isCancelled j = true ∧ (ix.act (.call c)).unpublished k j = true := by
  have hpending : j ∈ ix.ledger.pending ∧ (ix.running ≠ none ∨ ix.queue ≠ []) := by
    rcases unpublished_cases pending with ⟨w, hw⟩ | ⟨project, request, queued⟩
    · obtain ⟨r, running, phase, -, pass⟩ := walkOf?_eq_some hw
      exact ⟨by simp [pending_of_walking running phase, pass], .inl (by simp [running])⟩
    · exact ⟨List.mem_append_right _ (List.mem_filterMap.2 ⟨_, queued, rfl⟩),
        .inr (List.ne_nil_of_mem queued)⟩
  obtain ⟨⟨job, hqueue⟩, hrunning, hcancelled⟩ := call_supersedes hpending.2 hc
  constructor
  · have hj : j ∈ ix.active.toList ++ ix.cancelled := by
      rcases hix.ordered.current j hpending.1 with hj | hactive
      · exact List.mem_append_right _ hj
      · exact List.mem_append_left _ (by simpa [ledger] using hactive)
    simpa [isCancelled, hcancelled] using hj
  · rw [unpublished, walkOf?, hrunning, hqueue, List.any_append, ← Bool.or_assoc]
    rw [unpublished, walkOf?] at pending
    rw [pending, Bool.true_or]

end Calls

/-- Cancellation takes precedence, but for the entry file. A pass that has not published is
cancelled by every later call that asks for a pass and by every call to stop. Once it is
cancelled, it returns as soon as no read is held back, whatever happens to files and whatever is
asked meanwhile; it never completes, and if it is executed it leaves the state of its outcome. It
is sure to be cancelled exactly if it is not just getting its entry file at that time; otherwise
it may still fail on that file. -/
theorem cancellation_takes_precedence (config : Config) (files : Memory) (before : List Action)
    (k j : Nat) (pending : ((new config files).run before).unpublished k j = true) :
    let ix := (new config files).run before
    (∀ c, c = .stop ∨ (ix.act (.call c)).passCount = ix.passCount + 1 →
      (ix.act (.call c)).isCancelled j = true ∧ (ix.act (.call c)).unpublished k j = true) ∧
    (ix.isCancelled j = true →
      ((∀ after o, (k, o) ∈ (ix.run after).outcomes → o = .cancelled) ↔
        ix.awaitsEntry k j = false) ∧
      ∀ after,
        (∀ o, (k, o) ∈ (ix.run after).outcomes →
          o = .cancelled ∨ ∃ entry e, o = .failed (.unreadableEntry entry e)) ∧
        (∀ r a o, (ix.run after).running = some r → r.call = k →
          (k, o) ∈ ((ix.run after).act a).outcomes →
          ((ix.run after).act a).state = stateAfter o) ∧
        ∃ n o, (k, o) ∈
          (((ix.run after).act .openGate).run (List.replicate n .advance)).outcomes) := by
  intro ix
  have hix : ix.Sound := run_sound (sound_new config files) before
  refine ⟨fun c hc => unpublished_call hix pending hc, fun hcancelled => ?_⟩
  have hsound : ∀ after, (ix.run after).Sound := run_sound hix
  have hdoomed : ∀ after, Doomed k j (ix.awaitsEntry k j = false) (ix.run after) :=
    run_preserves event_doomed
      (doomed_of_unpublished pending (by simpa [isCancelled] using hcancelled))
  have houtcome : ∀ after o, (k, o) ∈ (ix.run after).outcomes → o = .cancelled ∨
      ix.awaitsEntry k j = true ∧ ∃ entry e, o = .failed (.unreadableEntry entry e) :=
    fun after o ho => by simpa using (hdoomed after).outcome (hsound after).accounted ho
  refine ⟨⟨fun hall => ?_, fun hsafe after o ho => ?_⟩,
    fun after => ⟨fun o ho => ?_, ?_, ?_⟩⟩
  · by_contra hawaits
    obtain ⟨after, entry, e, ho⟩ := canFail_of_awaitsEntry (Bool.not_eq_false _ ▸ hawaits)
    cases hall after _ ho
  · rcases houtcome after o ho with hcancelled | ⟨hawaits, -⟩
    · exact hcancelled
    · cases hsafe.symm.trans hawaits
  · exact (houtcome after o ho).imp_right And.right
  · rintro r a o running rfl ho
    exact state_of_outcome (act_event _ a) (hsound after) running ho
  · have hopen := event_doomed (act_event _ .openGate) (hdoomed after)
    exact hopen.returns (event_sound (act_event _ .openGate) (hsound after)) rfl

/-- The walk is held back at the file that the entry file imports when the pass is stopped. -/
def heldAtImport : List Action :=
  [.write ⟨"/p/main.asm"⟩ "#import \"a.asm\"\n", .write ⟨"/p/a.asm"⟩ "nop\n",
    .gate ⟨"/p/a.asm"⟩,
    .call (.initial ⟨"/p"⟩ {})] ++ List.replicate 7 .advance ++ [.call .stop]

theorem cancellation_takes_precedence_at_import :
    ((new {} {}).run heldAtImport).unpublished 0 1 = true ∧
      ((new {} {}).run heldAtImport).isCancelled 1 = true ∧
      (∀ after o, (0, o) ∈ (((new {} {}).run heldAtImport).run after).outcomes →
        o = .cancelled) ∧
      ∃ n o, (0, o) ∈ ((((new {} {}).run heldAtImport).act .openGate).run
        (List.replicate n .advance)).outcomes := by
  have hpending : ((new {} {}).run heldAtImport).unpublished 0 1 = true := by decide +kernel
  have hcancelled : ((new {} {}).run heldAtImport).isCancelled 1 = true := by decide +kernel
  have hsafe : ((new {} {}).run heldAtImport).awaitsEntry 0 1 = false := by decide +kernel
  obtain ⟨hexact, hrest⟩ :=
    (cancellation_takes_precedence {} {} heldAtImport 0 1 hpending).2 hcancelled
  obtain ⟨-, -, hreturns⟩ := hrest []
  rw [run_nil] at hreturns
  exact ⟨hpending, hcancelled, hexact.2 hsafe, hreturns⟩

/-- The walk is held back at the entry file, which cannot be read, when the pass is stopped. -/
def heldAtEntry : List Action :=
  [.write ⟨"/p/main.asm"⟩ "nop\n", .gate ⟨"/p/main.asm"⟩, .failReads ⟨"/p/main.asm"⟩,
    .call (.initial ⟨"/p"⟩ {}), .advance, .advance, .call .stop]

def gateOpened : List Action := [.openGate, .advance, .advance, .advance]

/-- Why a call failed. -/
def error? (ix : Indexer) (k : Nat) : Option PassError :=
  match ix.outcome? k with
  | some (.failed e) => some e
  | _ => none

theorem outcome?_of_error? {ix : Indexer} {k : Nat} {e : PassError} (h : ix.error? k = some e) :
    ix.outcome? k = some (.failed e) := by
  unfold error? at h
  split at h
  · rename_i houtcome
    cases h
    exact houtcome
  · cases h

theorem unreadable_entry_precedes_cancellation :
    ((new {} {}).run heldAtEntry).unpublished 0 1 = true ∧
      ((new {} {}).run heldAtEntry).isCancelled 1 = true ∧
      (((new {} {}).run heldAtEntry).run gateOpened).outcome? 0 =
        some (.failed (.unreadableEntry ⟨"/p/main.asm"⟩ (.unavailable ⟨"/p/main.asm"⟩))) ∧
      (((new {} {}).run heldAtEntry).run gateOpened).state = .failed := by
  refine ⟨by decide +kernel, by decide +kernel, outcome?_of_error? ?_, by decide +kernel⟩
  decide +kernel

end Indexer

end AsmIndex

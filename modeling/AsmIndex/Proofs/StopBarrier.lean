import AsmIndex.Proofs.PassRecords

/-!
A call to stop is a barrier. Calls get their turn in the order in which they were made, so those
made before it are over when it is; and it cancels the active pass, so none of their passes
publishes any more.
-/

namespace AsmIndex

/-- The pass that waits, if any, is none of the first `n`. -/
def Job.After (n : Nat) (job : Job) : Prop := ∀ id, job.pass? = some id → n < id

namespace Indexer

/-- The call `k` to stop, made when `n` passes had been started, waits with only later passes
behind it, or is over and only later passes are left. -/
inductive Barrier (k n : Nat) (ix : Indexer) : Prop
  | waiting {front back} (queue : ix.queue = front ++ .stop k :: back)
      (later : ∀ job ∈ back, job.After n)
  | passed (reported : (k, .stopped) ∈ ix.outcomes)
      (running : ∀ r, ix.running = some r → n < r.plan.pass)
      (later : ∀ job ∈ ix.queue, job.After n)

section Barrier

variable {k n : Nat} {ix ix' : Indexer} {a : Action}

theorem turn_barrier (h : Turn ix ix') (hix : Barrier k n ix) : Barrier k n ix' := by
  cases hix with
  | @waiting front back queue later =>
      cases front with
      | nil =>
          cases h with
          | release free next =>
              cases queue.symm.trans next
              refine .passed (List.mem_append_right _ (List.mem_singleton_self _)) ?_ later
              intro r hr
              cases free.symm.trans hr
          | dismiss free next _ | start free next _ => cases queue.symm.trans next
      | cons job front =>
          cases h with
          | release free next | dismiss free next _ | start free next _ =>
              cases queue.symm.trans next
              exact .waiting rfl later
  | passed reported running later =>
      cases h with
      | release free next | dismiss free next _ =>
          refine .passed (List.mem_append_left _ reported) running fun job hjob => later job ?_
          exact next ▸ List.mem_cons_of_mem _ hjob
      | start free next _ =>
          refine .passed reported ?_ fun job hjob =>
            later job (next ▸ List.mem_cons_of_mem _ hjob)
          rintro r ⟨⟩
          exact later _ (next ▸ List.mem_cons_self) _ rfl

theorem Barrier.enqueue (hix : Barrier k n ix) (job : Job) (hjob : job.After n)
    (hqueue : ix'.queue = ix.queue ++ [job]) (hrunning : ix'.running = ix.running)
    (houtcomes : ix'.outcomes = ix.outcomes) : Barrier k n ix' := by
  cases hix with
  | @waiting front back queue later =>
      have hqueue' : ix'.queue = front ++ .stop k :: (back ++ [job]) := by simp [hqueue, queue]
      refine .waiting hqueue' ?_
      simpa [or_imp, forall_and] using ⟨later, hjob⟩
  | passed reported running later =>
      refine .passed (houtcomes ▸ reported) (hrunning ▸ running) ?_
      rw [hqueue]
      simpa [or_imp, forall_and] using ⟨later, hjob⟩

theorem Barrier.of_queue (hix : Barrier k n ix) (hqueue : ix'.queue = ix.queue)
    (houtcomes : ∀ x ∈ ix.outcomes, x ∈ ix'.outcomes)
    (hrunning : ∀ r, ix'.running = some r → ∃ r₀, ix.running = some r₀ ∧
      r₀.plan = r.plan) :
    Barrier k n ix' := by
  cases hix with
  | waiting queue later => exact .waiting (hqueue.trans queue) later
  | passed reported running later =>
      refine .passed (houtcomes _ reported) ?_ (hqueue ▸ later)
      intro r hr
      obtain ⟨r₀, hr₀, hplan⟩ := hrunning r hr
      exact hplan ▸ running r₀ hr₀

theorem event_barrier (h : Event ix a ix') (hcount : n ≤ ix.passCount) (hix : Barrier k n ix) :
    Barrier k n ix' := by
  have houtcomes : ∀ x ∈ ix.outcomes, x ∈ ix'.outcomes := fun _ => event_outcomes h
  cases h with
  | ask asks waits =>
      refine waits.preserves turn_barrier (hix.enqueue (ix.askedJob _ _) ?_ rfl rfl rfl)
      rintro id ⟨⟩
      exact Nat.lt_succ_of_le hcount
  | stop waits =>
      refine waits.preserves turn_barrier (hix.enqueue (.stop ix.callCount) ?_ rfl rfl rfl)
      rintro id ⟨⟩
  | turn h => exact turn_barrier h hix
  | walk running _ _ _ | publish running _ _ _ _ | work running _ _ _ =>
      refine hix.of_queue rfl houtcomes ?_
      rintro r ⟨⟩
      exact ⟨_, running, rfl⟩
  | abandon _ _ _ _ | fail _ _ _ | unchanged _ _ _ _ _ | join _ _ =>
      refine hix.of_queue rfl houtcomes ?_
      rintro r ⟨⟩
  | _ => exact hix.of_queue rfl houtcomes fun r hr => ⟨r, hr, rfl⟩

theorem barrier_run (ix : Indexer) (after : List Action) :
    ix.passCount ≤ ((ix.act (.call .stop)).run after).passCount ∧
      Barrier ix.callCount ix.passCount ((ix.act (.call .stop)).run after) := by
  have hqueue : ix.stopping.queue = ix.queue ++ .stop ix.callCount :: [] := rfl
  have hstop : Barrier ix.callCount ix.passCount (ix.act (.call .stop)) :=
    ix.stop_waits.preserves turn_barrier (.waiting hqueue (by simp))
  obtain ⟨_, _, hcount, _⟩ := waits_frame ix.stop_waits
  refine run_preserves
    (P := fun ix' => ix.passCount ≤ ix'.passCount ∧ Barrier ix.callCount ix.passCount ix')
    ?_ ⟨Nat.le_of_eq hcount.symm, hstop⟩ after
  rintro ix₁ ix₂ a hevent ⟨hle, hbarrier⟩
  refine ⟨?_, event_barrier hevent hle hbarrier⟩
  rcases event_passCount hevent with hcount | ⟨hcount, _⟩ <;> omega

theorem Barrier.left (hix : Barrier k n ix) (hsound : ix.Accounted)
    (hover : (k, .stopped) ∈ ix.outcomes) :
    (∀ r, ix.running = some r → n < r.plan.pass) ∧ ∀ job ∈ ix.queue, job.After n := by
  cases hix with
  | waiting queue later =>
      refine absurd hover (hsound.not_mem_outcomes (List.mem_append_right _ ?_) _)
      simp [queue, Job.call]
  | passed _ running later => exact ⟨running, later⟩

/-- Where only passes later than the first `n` are left, those are over. -/
theorem Assigned.over {passes : List (Nat × Nat)} (h : Assigned passes ix) (hsound : ix.Accounted)
    (hrunning : ∀ r, ix.running = some r → n < r.plan.pass)
    (hqueue : ∀ job ∈ ix.queue, job.After n) {x : Nat × Nat} (hx : x ∈ passes)
    (hle : x.2 ≤ n) : ∃ o, (x.1, o) ∈ ix.outcomes := by
  have hmem : x.1 ∈ ix.calls := hsound.symm.subset (List.mem_range.2 (h.made x hx))
  rcases List.mem_append.1 hmem with hover | hpending
  · obtain ⟨⟨_, o⟩, ho, rfl⟩ := List.mem_map.1 hover
    exact ⟨o, ho⟩
  · exfalso
    rcases List.mem_append.1 hpending with hexecuted | hwaiting
    · obtain ⟨r, hr, hcall⟩ := List.mem_map.1 hexecuted
      have hr := Option.mem_toList.1 hr
      have hnumber : r.plan.pass = x.2 := h.number_unique (hcall ▸ h.running r hr) hx
      have hlt := hrunning r hr
      omega
    · obtain ⟨job, hjob, hcall⟩ := List.mem_map.1 hwaiting
      cases job with
      | pass call id project request =>
          have hnumber : id = x.2 := h.number_unique (hcall ▸ h.waiting _ _ _ _ hjob) hx
          have hlt := hqueue _ hjob id rfl
          omega
      | stop call => exact h.stops call hjob x hx hcall.symm

/-- The calls with the numbers from `k` on, `count` in number, were calls to stop and are over. -/
def stoppedCalls (k count : Nat) : List (Nat × Outcome) :=
  (List.range' k count).map fun k => (k, .stopped)

theorem stop_idle (hactive : ix.active = none) (hrunning : ix.running = none)
    (hqueue : ix.queue = []) :
    ix.act (.call .stop) =
      { ix with
        callCount := ix.callCount + 1
        outcomes := ix.outcomes ++ [(ix.callCount, .stopped)] } := by
  obtain ⟨⟩ := ix
  simp_all [act, call, cancelActive, Indexer.enqueue, grant, report]

theorem stops_idle (hactive : ix.active = none) (hrunning : ix.running = none)
    (hqueue : ix.queue = []) (count : Nat) :
    ix.run (List.replicate count (.call .stop)) =
      { ix with
        callCount := ix.callCount + count
        outcomes := ix.outcomes ++ stoppedCalls ix.callCount count } := by
  induction count generalizing ix with
  | zero => simp [run_nil, stoppedCalls]
  | succ count ih =>
      rw [List.replicate_succ, run_cons, stop_idle hactive hrunning hqueue, ih]
      · simp [stoppedCalls, List.range'_succ, Nat.add_assoc, Nat.add_comm 1]
      · exact hactive
      · exact hrunning
      · exact hqueue

end Barrier

/-- A call to stop is a barrier. Passes that publish after it was made were started after it. Once
it is over, every pass started before it is over, the pass that is executed was started after it,
and where the state changes, such a pass gets its turn or ends, or a call is refused for want of a
project. Where no call is pending, calls to stop change nothing but the record of calls. -/
theorem stop_is_barrier (config : Config) (files : Memory) (before after : List Action) :
    let ix := (new config files).run before
    let stopped := (ix.act (.call .stop)).run after
    ((ix.act (.call .stop)).snapshot = ix.snapshot ∧
      (ix.act (.call .stop)).notices = ix.notices) ∧
      (∀ a i, stopped.Publishes a i → ix.passCount < i) ∧
      ((ix.callCount, .stopped) ∈ stopped.outcomes →
        (∀ x ∈ (new config files).passes before, ∃ o, (x.1, o) ∈ stopped.outcomes) ∧
        (∀ r, stopped.running = some r → ix.passCount < r.plan.pass) ∧
        ∀ a, (stopped.act a).state ≠ stopped.state →
          (∃ r, ix.passCount < r.plan.pass ∧
            (stopped.running = none ∧ (stopped.act a).running = some r ∨
              stopped.running = some r ∧ (stopped.act a).running = none)) ∨
          (stopped.callCount, .failed .noProject) ∈ (stopped.act a).outcomes) ∧
      ((∀ k < ix.callCount, ∃ o, (k, o) ∈ ix.outcomes) →
        ∀ count, ix.run (List.replicate count (.call .stop)) =
          { ix with
            callCount := ix.callCount + count
            outcomes := ix.outcomes ++ stoppedCalls ix.callCount count }) := by
  intro ix stopped
  have hkept := kept_run config files before
  have hrun : (new config files).run (before ++ .call .stop :: after) = stopped := by
    rw [run_append, run_cons]
  have hstopped : Kept ((new config files).passes (before ++ .call .stop :: after)) stopped :=
    hrun ▸ kept_run config files (before ++ .call .stop :: after)
  refine ⟨?_, fun a i hpublishes => hpublishes.after_stop hkept.sound, ?_, ?_⟩
  · obtain ⟨hsnapshot, hnotices, _⟩ := waits_frame ix.stop_waits
    exact ⟨hsnapshot, hnotices⟩
  · intro hover
    obtain ⟨hcount, hbarrier⟩ := barrier_run ix after
    obtain ⟨hrunning, hqueue⟩ := hbarrier.left hstopped.sound.accounted hover
    refine ⟨?_, hrunning, ?_⟩
    · intro x hx
      refine hstopped.assigned.over hstopped.sound.accounted hrunning hqueue ?_
        (hkept.assigned.number_le hx)
      rw [passes_append]
      exact List.mem_append_left _ hx
    · intro a hstate
      have hevent := act_event stopped a
      cases event_shift hevent with
      | stays state => exact absurd state hstate
      | @starts r free executed _ =>
          have hnext := event_barrier hevent hcount hbarrier
          have hleft := hnext.left (event_accounted hevent hstopped.sound.accounted)
            (event_outcomes hevent hover)
          exact .inl ⟨r, hleft.1 r executed, .inl ⟨free, executed⟩⟩
      | @ends r _ executed free _ _ =>
          exact .inl ⟨r, hrunning r executed, .inr ⟨executed, free⟩⟩
      | refused _ _ reported _ => exact .inr reported
  · intro hover count
    obtain ⟨hactive, hrunning, hqueue⟩ :=
      idle_of_over hkept.sound.accounted hkept.attended hover
    exact stops_idle hactive hrunning hqueue count

/-- A call that is refused for want of a project changes the state after a stop, and no pass
starts or ends. -/
theorem refusal_changes_state_after_stop :
    let stopped := (new {} {}).act (.call .stop)
    (0, .stopped) ∈ stopped.outcomes ∧ stopped.state = .idle ∧
      (stopped.act (.call (.parse {}))).state = .failed ∧
      (new {} {}).passes [.call .stop, .call (.parse {})] = [] ∧
      ¬ ∀ a, (stopped.act a).state ≠ stopped.state →
        ∃ r, (stopped.running = some r ∨ (stopped.act a).running = some r) ∧
        0 < r.plan.pass := by
  refine ⟨List.mem_singleton_self _, rfl, rfl, rfl, fun hpasses => ?_⟩
  obtain ⟨r, hr, _⟩ := hpasses (.call (.parse {})) (by decide)
  rcases hr with hr | hr <;> cases hr

end Indexer

end AsmIndex

import AsmIndex.Proofs.Settling
import AsmIndex.Proofs.StepBounds

/-!
Running an indexer until nothing can move. Each bound that is taken covers the steps until the
running pass is over or waits, or until the next call has got its turn; so with two bounds for
each call that waits, nothing can move in the end.
-/

namespace AsmIndex

theorem Memory.lists_view (m : Memory) :
    m.view.Lists (m.files.keys.map Path.components) (m.files.values.map MemoryFile.content) where
  file := fun _ hfile => components_mem_of_isFile hfile
  text := by
    intro p text hread
    obtain ⟨_, f, hf, rfl⟩ := read_eq_ok.1 hread
    exact List.mem_map.2 ⟨f, OrderedMap.mem_values_of_get? hf, rfl⟩

namespace Indexer

/-- What is left to come: the turn and the end of each call that waits, and the end of the pass
that runs. -/
def jobsLeft (ix : Indexer) : Nat := 2 * ix.queue.length + ix.running.toList.length

/-- Nothing can move any more, or less is left to come. -/
def Eases (ix ix' : Indexer) : Prop := ix'.advance? = none ∨ ix'.jobsLeft < ix.jobsLeft

section Drive

variable {ix : Indexer} {r : Running} {n : Nat}

theorem act_of_rest (h : ix.advance? = none) : ix.act .advance = ix := by
  simp [act, h]

theorem drive_of_rest (h : ix.advance? = none) (n : Nat) : drive n ix = ix := by
  cases n with
  | zero => rfl
  | succ n => simp [drive, h]

theorem drive_eq_run (n : Nat) (ix : Indexer) :
    drive n ix = ix.run (List.replicate n .advance) := by
  induction n generalizing ix with
  | zero => rfl
  | succ n ih =>
      rw [List.replicate_succ, run_cons, ← ih, drive]
      cases hnext : ix.advance? with
      | none => rw [act_of_rest hnext, drive_of_rest hnext]
      | some ix' => simp [act, hnext]

theorem drive_succ (n : Nat) (ix : Indexer) : drive (n + 1) ix = drive n (ix.act .advance) := by
  rw [drive_eq_run, drive_eq_run, List.replicate_succ, run_cons]

theorem jobsLeft_act_le (ix : Indexer) : (ix.act .advance).jobsLeft ≤ ix.jobsLeft := by
  have hone : ∀ o : Option Running, o.toList.length ≤ 1 := by rintro (_ | _) <;> simp
  cases hrunning : ix.running with
  | some r =>
      have hle := hone (ix.act .advance).running
      rw [jobsLeft, queue_advance hrunning, jobsLeft, hrunning]
      exact Nat.add_le_add_left hle _
  | none =>
      cases hqueue : ix.queue with
      | nil => rw [act_of_rest (by simp [advance?, hrunning, hqueue])]
      | cons job rest =>
          have hle := hone (ix.act .advance).running
          rw [jobsLeft, queue_advance_idle hrunning hqueue, jobsLeft, hqueue, List.length_cons]
          omega

theorem jobsLeft_drive_le (n : Nat) (ix : Indexer) : (drive n ix).jobsLeft ≤ ix.jobsLeft := by
  induction n generalizing ix with
  | zero => exact Nat.le_refl _
  | succ n ih =>
      rw [drive_succ]
      exact (ih _).trans (jobsLeft_act_le ix)

theorem eases_of_rest (h : ix.advance? = none) : ix.Eases (drive n ix) := by
  rw [drive_of_rest h]
  exact .inl h

theorem Eases.step (h : (ix.act .advance).Eases (drive n (ix.act .advance))) :
    ix.Eases (drive (n + 1) ix) := by
  rw [drive_succ]
  exact h.imp_right fun hless => hless.trans_le (jobsLeft_act_le ix)

theorem eases_of_less (h : (ix.act .advance).jobsLeft < ix.jobsLeft) :
    ix.Eases (drive (n + 1) ix) := by
  rw [drive_succ]
  exact .inr ((jobsLeft_drive_le n _).trans_lt h)

theorem eases_idle (idle : ix.running = none) : ix.Eases (drive (n + 1) ix) := by
  cases hqueue : ix.queue with
  | nil => exact eases_of_rest (by simp [advance?, idle, hqueue])
  | cons job rest =>
      refine eases_of_less ?_
      rw [jobsLeft, queue_advance_idle idle hqueue, jobsLeft, hqueue, List.length_cons]
      cases (ix.act .advance).running <;> simp <;> omega

theorem eases_over (running : ix.running = some r) (h : (ix.act .advance).running = none) :
    ix.Eases (drive (n + 1) ix) :=
  eases_of_less (by simp [jobsLeft, queue_advance running, running, h])

/-- A pass whose tasks are all held back waits for them, or is over. -/
theorem eases_held {summary : Summary} {tasks : List Task} (running : ix.running = some r)
    (phase : r.phase = .joining summary tasks) (held : ∀ t ∈ tasks, ix.isHeld t = true) :
    ix.Eases (drive (n + 1) ix) := by
  cases tasks with
  | nil =>
      refine eases_over running ?_
      simp [act, advance?, running, advancePass?, phase, endPass, report]
  | cons t rest =>
      have hfree : (t :: rest).filter (fun t => !ix.isHeld t) = [] := by simpa using held
      exact eases_of_rest (by simp [advance?, running, advancePass?, phase, hfree])

theorem eases_joining {summary : Summary} {tasks : List Task} (running : ix.running = some r)
    (phase : r.phase = .joining summary tasks) : ix.Eases (drive (n + 2) ix) := by
  by_cases hheld : ∀ t ∈ tasks, ix.isHeld t = true
  · exact eases_held running phase hheld
  · have hact : (ix.act .advance).running =
        some { r with phase := .joining summary (tasks.filter ix.isHeld) } := by
      have hfree : ¬ (tasks.filter fun t => !ix.isHeld t).isEmpty = true := by simpa using hheld
      have htasks : ¬ tasks.isEmpty = true := by
        intro hempty
        simp [List.isEmpty_iff.1 hempty] at hheld
      simp only [act, advance?, running, advancePass?, phase, htasks, hfree]
      exact (foldl_perform_frame _ _ _).2
    refine .step (eases_held hact rfl ?_)
    have hgated : (ix.act .advance).files.isGated = ix.files.isGated := by
      funext path
      simp only [Memory.isGated, gated_advance]
    intro t ht
    rw [isHeld, hgated]
    exact (List.mem_filter.1 ht).2

theorem eases_ended {w : Walk} {ending : Walk.Ending} (running : ix.running = some r)
    (phase : r.phase = .walking w) (ended : w.ending? = some ending) :
    ix.Eases (drive (n + 3) ix) := by
  have hrunning := conclude_running ix r w ending
  rw [← act_advance_ended running phase ended] at hrunning
  rcases hrunning with hidle | ⟨summary, tasks, hjoining⟩
  · exact eases_over running hidle
  · exact .step (eases_joining hjoining rfl)

theorem advance?_of_heldBack {w : Walk} (running : ix.running = some r)
    (phase : r.phase = .walking w) (hheld : w.HeldBack ix.files) : ix.advance? = none := by
  obtain ⟨path, symbols, time, hstage, hgate⟩ := hheld
  simp [advance?, running, advancePass?, phase, Walk.ending?, hstage, hgate]

theorem eases_walking {w : Walk} {places : List (List Path.Component)} {names : List String}
    {most : Nat} (running : ix.running = some r) (phase : r.phase = .walking w)
    (hscope : Walk.Scope r.plan ix.files.view places names most) (hcoherent : w.Coherent r.plan)
    (hw : w.Within places names)
    (hn : w.stepsLeft r.plan (keysWithin places names) most ≤ n) :
    ix.Eases (drive (n + 3) ix) := by
  induction n using Nat.strong_induction_on generalizing ix r w with
  | _ n ih =>
      cases hending : w.ending? with
      | some ending => exact eases_ended running phase hending
      | none =>
          by_cases hheld : w.HeldBack ix.files
          · exact eases_of_rest (advance?_of_heldBack running phase hheld)
          · have hmove := Walk.step_move r.plan ix.files.view (ix.isCancelled r.plan.pass) w
            have hless := Walk.move_stepsLeft hscope hmove hcoherent hw hending
            obtain ⟨k, rfl⟩ := Nat.exists_eq_succ_of_ne_zero (show n ≠ 0 by omega)
            have hact := act_advance_walk running phase hending hheld
            have hview : (ix.act .advance).files.view = ix.files.view := by
              rw [hact]
              exact (Walk.sameFiles_counted w ix.files).view_eq
            refine .step (ih k (Nat.lt_succ_self k) (congrArg Indexer.running hact) rfl ?_ ?_ ?_ ?_)
            · rw [hview]
              exact hscope
            · exact Walk.move_coherent hmove hcoherent
            · exact Walk.move_within hscope hmove hcoherent hw
            · exact Nat.le_of_lt_succ (hless.trans_le hn)

end Drive

section Settle

variable {ix : Indexer}

/-- Within its budget a pass is over or waits, and where nothing runs the next call gets its
turn. -/
theorem WalksFromEntry.eases_budget (hix : ix.WalksFromEntry) : ix.Eases (drive ix.budget ix) := by
  cases hrunning : ix.running with
  | none =>
      have hbudget : ix.budget = 1 + 1 := by simp [budget, hrunning]
      rw [hbudget]
      exact eases_idle hrunning
  | some r =>
      obtain ⟨call, project, plan, phase⟩ := r
      cases phase with
      | joining summary tasks =>
          have hbudget : ix.budget = 0 + 2 := by simp [budget, hrunning]
          rw [hbudget]
          exact eases_joining hrunning rfl
      | walking w =>
          obtain ⟨symbols, hproceeds⟩ := hix _ _ hrunning rfl
          have hcoherent : w.Coherent plan :=
            hproceeds.preserves Walk.move_coherent (Walk.coherent_start _ _ _)
          have hbudget : ix.budget = w.budget plan ix.files.files.size
              (ix.files.files.values.map MemoryFile.content) + 3 := by simp [budget, hrunning]
          rw [hbudget]
          refine eases_walking hrunning rfl (Walk.scope_ahead ix.files.lists_view plan w) hcoherent
            (Walk.within_ahead w _) (Walk.stepsLeft_le_budget plan _ w ?_)
          simp [OrderedMap.keys, OrderedMap.size]

theorem settleIn_of_rest (h : ix.advance? = none) (count : Nat) : settleIn count ix = ix := by
  induction count with
  | zero => rfl
  | succ count ih => rw [settleIn, drive_of_rest h, ih]

theorem rest_of_jobsLeft (h : ix.jobsLeft = 0) : ix.advance? = none := by
  obtain ⟨hqueue, hrunning⟩ : ix.queue = [] ∧ ix.running = none := by simpa [jobsLeft] using h
  simp [advance?, hqueue, hrunning]

/-- Where no read is held back, an indexer in which nothing can move has nothing to do. -/
theorem idle_of_rest (h : ix.advance? = none) (hopen : ix.files.gated = OrderedMap.empty) :
    ix.running = none ∧ ix.queue = [] := by
  cases hrunning : ix.running with
  | none =>
      cases hqueue : ix.queue with
      | nil => exact ⟨rfl, rfl⟩
      | cons job rest => simp [advance?, hrunning, hqueue] at h
  | some r =>
      simp only [advance?, hrunning, advancePass?] at h
      cases hphase : r.phase with
      | walking w =>
          cases hstage : w.stage <;>
            simp [hphase, Walk.ending?, hstage, Memory.isGated, hopen] at h
      | joining summary tasks =>
          cases tasks <;> simp [hphase, isHeld_of_open hopen] at h

theorem settleIn_eq_run (count : Nat) (ix : Indexer) :
    ∃ n, settleIn count ix = ix.run (List.replicate n .advance) := by
  induction count generalizing ix with
  | zero => exact ⟨0, rfl⟩
  | succ count ih =>
      obtain ⟨n, hn⟩ := ih (drive ix.budget ix)
      refine ⟨ix.budget + n, ?_⟩
      rw [settleIn, hn, drive_eq_run, ← run_append, List.replicate_append_replicate]

theorem WalksFromEntry.settleIn_rests (hix : ix.WalksFromEntry) {count : Nat}
    (hcount : ix.jobsLeft ≤ count) : (settleIn count ix).advance? = none := by
  induction count generalizing ix with
  | zero => exact rest_of_jobsLeft (Nat.le_zero.1 hcount)
  | succ count ih =>
      rw [settleIn]
      rcases hix.eases_budget with hrest | hless
      · rw [settleIn_of_rest hrest]
        exact hrest
      · refine ih ?_ (Nat.le_of_lt_succ (hless.trans_le hcount))
        rw [drive_eq_run]
        exact run_preserves event_walksFromEntry hix _

end Settle

/-- To settle is to take steps until nothing can move. Where no read is held back, all calls are
over then. -/
theorem settle_rests (config : Config) (files : Memory) (actions : List Action) :
    let ix := (new config files).run actions
    (∃ n, ix.settle = ix.run (List.replicate n .advance)) ∧ ix.settle.advance? = none ∧
      (ix.files.gated = OrderedMap.empty → ix.settle.running = none ∧
        ix.settle.queue = []) := by
  intro ix
  obtain ⟨n, hn⟩ := settleIn_eq_run (2 * ix.queue.length + 2) ix
  have hjobs : ix.jobsLeft ≤ 2 * ix.queue.length + 2 := by
    unfold jobsLeft
    cases ix.running <;> simp
  have hrest : ix.settle.advance? = none :=
    (walksFromEntry_run config files actions).settleIn_rests hjobs
  refine ⟨⟨n, hn⟩, hrest, fun hopen => idle_of_rest hrest ?_⟩
  rw [settle, hn, gated_run_advance, hopen]

end Indexer

end AsmIndex

import AsmIndex.Proofs.RunningWalk

/-!
The trace of a pass from its turn to its outcome, whatever else is asked of the indexer meanwhile.
A pass walks; once its walk is complete it ends, or it publishes its index first and waits for the
tasks of subscribers. Until a later pass publishes, the published index is the one that the pass
has computed.
-/

namespace AsmIndex.Indexer

/-- How far a pass that got its turn as `r` has come, where `P` holds of its walk. -/
inductive Trace (r : Running) (P : Walk → Prop) (ix : Indexer) : Prop
  | walking {w} (running : ix.running = some { r with phase := .walking w }) (walk : P w)
  | joining {w tasks}
      (running : ix.running = some { r with phase := .joining (r.summary w) tasks }) (walk : P w)
      (ended : w.ending? = some .complete)
      (changed : (Changes.between r.plan.previous w.index).isEmpty = false)
      (shown : ∀ p s, ix.snapshot.index.get? p s = w.index.get? p s)
  | completed {w} (reported : (r.call, .completed (r.summary w)) ∈ ix.outcomes) (walk : P w)
      (ended : w.ending? = some .complete) (asked : r.plan.pass ≤ ix.passCount)
      (later : ∀ id ∈ ix.ledger.pending, r.plan.pass < id)
      (shown : ix.snapshot.pass ≤ r.plan.pass →
        ∀ p s, ix.snapshot.index.get? p s = w.index.get? p s)
  | cancelled (reported : (r.call, .cancelled) ∈ ix.outcomes)
  | failed {w e} (reported : (r.call, .failed (.unreadableEntry r.project.entry e)) ∈ ix.outcomes)
      (walk : P w) (ended : w.ending? = some (.unreadable e))

/-- The pass `r` takes a step of its walk, which is at `w`, with this action. -/
structure Steps (ix : Indexer) (a : Action) (r : Running) (w : Walk) : Prop where
  advance : a = .advance
  running : ix.running = some { r with phase := .walking w }
  going : w.ending? = none
  free : ¬ w.HeldBack ix.files

section Trace

variable {r : Running} {P : Walk → Prop} {ix ix' : Indexer} {a : Action}

theorem Trace.mono {Q : Walk → Prop} (h : Trace r P ix) (hPQ : ∀ w, P w → Q w) :
    Trace r Q ix := by
  cases h with
  | walking running walk => exact .walking running (hPQ _ walk)
  | joining running walk ended changed shown =>
      exact .joining running (hPQ _ walk) ended changed shown
  | completed reported walk ended asked later shown =>
      exact .completed reported (hPQ _ walk) ended asked later shown
  | cancelled reported => exact .cancelled reported
  | failed reported walk ended => exact .failed reported (hPQ _ walk) ended

/-- While a pass runs, no call that waits gets its turn. -/
theorem waits_running {r : Running} (h : Waits ix ix') (running : ix.running = some r) :
    ix' = ix := by
  rcases h with rfl | h
  · rfl
  · cases h <;> simp_all

theorem mem_endPass (ix : Indexer) (r : Running) (o : Outcome) :
    (r.call, o) ∈ (ix.endPass r o).outcomes :=
  List.mem_append_right _ (List.mem_singleton_self _)

theorem trace_walking (h : Event ix a ix') (hix : ix.Sound)
    (hstep : ∀ {w : Walk} (cancelled : Bool), ix.Steps a r w → P w →
      P (w.step r.plan ix.files.view cancelled))
    {w : Walk} (running : ix.running = some { r with phase := .walking w }) (walk : P w) :
    Trace r P ix' := by
  have hpending := pending_of_walking running rfl
  cases h with
  | ask asks waits | stop waits =>
      rw [waits_running waits running]
      exact .walking running walk
  | turn h => cases h <;> simp_all
  | walk running' phase' going free =>
      cases running.symm.trans running'
      cases phase'
      exact .walking rfl (hstep _ ⟨rfl, running, going, free⟩ walk)
  | abandon running' =>
      cases running.symm.trans running'
      exact .cancelled (mem_endPass _ _ _)
  | fail running' phase' ended =>
      cases running.symm.trans running'
      cases phase'
      exact .failed (mem_endPass _ _ _) walk ended
  | unchanged running' phase' ended _ same =>
      cases running.symm.trans running'
      cases phase'
      refine .completed (mem_endPass _ _ _) walk ended ?_ ?_ ?_
      · exact hix.ordered.bounded _ (by simp [hpending])
      · exact (List.pairwise_cons.1 (hpending ▸ hix.ordered.sorted)).1
      · exact fun _ => hix.shown_of_unchanged running rfl same
  | publish running' phase' ended _ changed =>
      cases running.symm.trans running'
      cases phase'
      exact .joining rfl walk ended changed fun _ _ => rfl
  | work running' phase' | join running' phase' =>
      cases running.symm.trans running'
      cases phase'
  | _ => exact .walking running walk

theorem trace_joining (h : Event ix a ix') (hix : ix.Sound) {w : Walk} {tasks : List Task}
    (running : ix.running = some { r with phase := .joining (r.summary w) tasks }) (walk : P w)
    (ended : w.ending? = some .complete)
    (changed : (Changes.between r.plan.previous w.index).isEmpty = false)
    (shown : ∀ p s, ix.snapshot.index.get? p s = w.index.get? p s) : Trace r P ix' := by
  have hpass : r.plan.pass = ix.ledger.published :=
    hix.ordered.joining _ (by simp [ledger, running, Running.joining?])
  cases h with
  | ask asks waits | stop waits =>
      rw [waits_running waits running]
      exact .joining running walk ended changed shown
  | turn h => cases h <;> simp_all
  | work running' phase' =>
      cases running.symm.trans running'
      cases phase'
      exact .joining rfl walk ended changed shown
  | join running' phase' =>
      cases running.symm.trans running'
      cases phase'
      refine .completed (mem_endPass _ _ _) walk ended ?_ ?_ fun _ => shown
      · rw [hpass]
        exact hix.ordered.published
      · intro id hid
        rw [hpass]
        exact hix.ordered.after id (pending_of_joining running rfl ▸ hid)
  | walk running' phase' | abandon running' phase' | fail running' phase'
  | unchanged running' phase' | publish running' phase' =>
      cases running.symm.trans running'
      cases phase'
  | _ => exact .joining running walk ended changed shown

/-- The passes that have not published did not before, or the last one was just asked for. -/
theorem event_pending_or (h : Event ix a ix') {id : Nat} (hid : id ∈ ix'.ledger.pending) :
    id ∈ ix.ledger.pending ∨ id = ix.passCount + 1 := by
  rcases event_passCount h with hcount | ⟨hcount, _⟩
  · cases h with
    | ask asks waits =>
        simpa [ledger, asked, askedJob, Job.pass?, or_assoc] using waits_pending waits hid
    | stop waits =>
        obtain ⟨_, _, hcount', _⟩ := waits_frame waits
        simp only [stopping] at hcount'
        omega
    | turn h =>
        obtain ⟨_, _, hcount', _⟩ := waits_frame (.inr h)
        omega
    | _ => simp [report, endPass, publish_eq] at hcount
  · exact .inl (event_pending h hcount hid)

theorem event_trace (h : Event ix a ix') (hix : ix.Sound)
    (hstep : ∀ {w : Walk} (cancelled : Bool), ix.Steps a r w → P w →
      P (w.step r.plan ix.files.view cancelled))
    (htrace : Trace r P ix) : Trace r P ix' := by
  cases htrace with
  | walking running walk => exact trace_walking h hix hstep running walk
  | joining running walk ended changed shown =>
      exact trace_joining h hix running walk ended changed shown
  | completed reported walk ended asked later shown =>
      refine .completed (event_outcomes h reported) walk ended ?_ ?_ ?_
      · rcases event_passCount h with hcount | ⟨hcount, _⟩ <;> omega
      · intro id hid
        rcases event_pending_or h hid with hold | rfl
        · exact later id hold
        · omega
      · rcases event_silent_or_publish h with
          ⟨hsnapshot, _⟩ | ⟨r', w', running, phase, _, _, _, rfl⟩
        · rwa [hsnapshot]
        · -- A pass that publishes now is a later one.
          intro hle
          have hlt := later r'.plan.pass (by simp [pending_of_walking running phase])
          exact absurd hle (Nat.not_le_of_lt hlt)
  | cancelled reported => exact .cancelled (event_outcomes h reported)
  | failed reported walk ended => exact .failed (event_outcomes h reported) walk ended

/-- As long as no file changes, the walk of the pass is led by steps over the files as they are in
`m`. -/
theorem run_trace {m : Memory} {w₀ : Walk} (hix : ix.Sound) (hfiles : m.SameFiles ix.files)
    (running : ix.running = some r) (phase : r.phase = .walking w₀) {during : List Action}
    (hstill : ∀ b ∈ during, b.changesFiles = false) :
    Trace r (Walk.Leads r.plan m.view w₀) (ix.run during) := by
  have hrun : (ix.run during).Sound ∧ m.SameFiles (ix.run during).files ∧
      Trace r (Walk.Leads r.plan m.view w₀) (ix.run during) := by
    refine run_preserves_mem (P := fun ix' => ix'.Sound ∧ m.SameFiles ix'.files ∧
      Trace r (Walk.Leads r.plan m.view w₀) ix') ?_ ⟨hix, hfiles,
      .walking (w := w₀) ?_ .refl⟩
    · rintro ix₁ ix₂ b hb hevent ⟨hsound, hsame, htrace⟩
      refine ⟨event_sound hevent hsound, hsame.trans (sameFiles_of_event hevent (hstill b hb)),
        event_trace hevent hsound ?_ htrace⟩
      intro w cancelled _ hw
      rw [hsame.view_eq]
      exact hw.step cancelled
    · rw [running, ← phase]
  exact hrun.2.2

/-- A pass that walks has not come further. -/
theorem Trace.walk_of_running (htrace : Trace r P ix) (hix : ix.Accounted) {r' : Running} {w : Walk}
    (running : ix.running = some r') (hcall : r'.call = r.call) (phase : r'.phase = .walking w) :
    r' = { r with phase := .walking w } ∧ P w := by
  have hpending : r.call ∈ ix.pendingCalls := by simp [pendingCalls, running, hcall]
  cases htrace with
  | walking running' walk =>
      cases running.symm.trans running'
      cases phase
      exact ⟨rfl, walk⟩
  | joining running' =>
      cases running.symm.trans running'
      cases phase
  | completed reported | cancelled reported | failed reported =>
      exact absurd reported (hix.not_mem_outcomes hpending _)

/-- What the trace of a pass says of its outcome. -/
theorem Trace.outcome (htrace : Trace r P ix) (hix : ix.Accounted) {o : Outcome}
    (ho : (r.call, o) ∈ ix.outcomes) :
    o = .cancelled ∨
      (∃ w e, P w ∧ w.ending? = some (.unreadable e) ∧
        o = .failed (.unreadableEntry r.project.entry e)) ∨
      ∃ w, P w ∧ w.ending? = some .complete ∧ o = .completed (r.summary w) ∧
        (ix.snapshot.pass ≤ r.plan.pass →
          ∀ p s, ix.snapshot.index.get? p s = w.index.get? p s) := by
  cases htrace with
  | walking running | joining running =>
      exact absurd ho (hix.not_mem_outcomes (by simp [pendingCalls, running]) o)
  | completed reported walk ended _ _ shown =>
      exact .inr (.inr ⟨_, walk, ended, hix.outcome_unique ho reported, shown⟩)
  | cancelled reported => exact .inl (hix.outcome_unique ho reported)
  | failed reported walk ended =>
      exact .inr (.inl ⟨_, _, walk, ended, hix.outcome_unique ho reported⟩)

end Trace

end AsmIndex.Indexer

import AsmIndex.Proofs.Termination

/-!
Passes settle. While no file changes and no read is held back, the running pass comes to its end,
and so does every call that waits behind it.
-/

namespace AsmIndex

theorem Memory.SameFiles.symm {m m' : Memory} (h : m.SameFiles m') : m'.SameFiles m :=
  ⟨h.files.symm, h.clock.symm, h.failing.symm⟩

namespace Walk

/-- A walk goes through the import graph, or has given up. -/
def Roams (plan : Plan) (m : Memory) (entry : Path) (symbols : Symbols) (w : Walk) : Prop :=
  w.stage = .ended .cancelled ∨ Explores plan m entry symbols w

theorem roams_start (plan : Plan) (m : Memory) (entry : Path) (symbols : Symbols) :
    Roams plan m entry symbols (start entry symbols) :=
  .inr ⟨coherent_start _ _ _, holds_start _ _, covers_start, rfl, rfl⟩

theorem Roams.step {plan : Plan} {m : Memory} {entry : Path} {symbols : Symbols} {w : Walk}
    (hw : Roams plan m entry symbols w)
    (hprevious : ∀ p s v, plan.previous.get? p s = some v → v.Fresh m p s) (cancelled : Bool) :
    Roams plan m entry symbols (w.step plan m.view cancelled) := by
  rcases hw with hended | hw
  · rw [move_ended (step_move _ _ _ _) hended]
    exact .inl hended
  · by_cases hgiven : (w.step plan m.view cancelled).stage = .ended .cancelled
    · exact .inl hgiven
    · rw [step_eq_of_not_cancelled hgiven]
      exact .inr (move_explores hprevious (step_move _ _ _ _) hw)

end Walk

namespace Indexer

/-- The files are as in `m` since the running pass got its turn. -/
structure Undisturbed (m : Memory) (ix : Indexer) : Prop where
  fresh : ix.Fresh
  files : m.SameFiles ix.files
  roams : ∀ {r w}, ix.running = some r → r.phase = .walking w →
    ∃ symbols, Walk.Roams r.plan m r.project.entry symbols w

section Undisturbed

variable {m : Memory} {ix ix' : Indexer} {a : Action} {r : Running} {w : Walk}

theorem Undisturbed.previous (h : ix.Undisturbed m) (running : ix.running = some r)
    (phase : r.phase = .walking w) :
    ∀ p s v, r.plan.previous.get? p s = some v → v.Fresh m p s := by
  intro p s v hv
  rw [h.fresh.sound.grounded.previous running phase] at hv
  exact lasting_fresh.variant (.inl h.files.symm) (h.fresh.holding.snapshot p s v hv)

theorem event_undisturbed (h : Event ix a ix') (ha : a.changesFiles = false)
    (hix : ix.Undisturbed m) : ix'.Undisturbed m where
  fresh := event_fresh h hix.fresh
  files := hix.files.trans (sameFiles_of_event h ha)
  roams := by
    intro r w running phase
    cases event_walking h running phase with
    | started reached turn =>
        obtain ⟨_, _, _, _, _, _, rfl⟩ := turn_begun turn running
        cases phase
        exact ⟨_, Walk.roams_start _ _ _ _⟩
    | stayed running' => exact hix.roams running' phase
    | stepped running' phase' same step =>
        obtain ⟨symbols, hw⟩ := hix.roams running' phase'
        rw [same, step, hix.files.view_eq]
        exact ⟨symbols, hw.step (hix.previous running' phase') _⟩

theorem run_undisturbed (hix : ix.Undisturbed m) {actions : List Action}
    (hstill : ∀ b ∈ actions, b.changesFiles = false) : (ix.run actions).Undisturbed m :=
  run_preserves_mem (fun hb hevent => event_undisturbed hevent (hstill _ hb)) hix

theorem advance_undisturbed (hix : ix.Undisturbed m) (n : Nat) :
    (ix.run (List.replicate n .advance)).Undisturbed m := by
  refine run_undisturbed hix fun b hb => ?_
  rw [List.eq_of_mem_replicate hb]
  rfl

end Undisturbed

section Advance

variable {ix : Indexer} {r : Running}

theorem queue_advance (running : ix.running = some r) : (ix.act .advance).queue = ix.queue := by
  have hevent := act_event ix .advance
  generalize ix.act .advance = ix' at hevent ⊢
  cases hevent with
  | turn h => cases h <;> simp_all
  | files change => cases change
  | _ => rfl

theorem act_advance_ended {w : Walk} {ending : Walk.Ending} (running : ix.running = some r)
    (phase : r.phase = .walking w) (ended : w.ending? = some ending) :
    ix.act .advance = ix.conclude r w ending := by
  simp [act, advance?, running, advancePass?, phase, ended]

theorem foldl_perform_frame (tasks : List Task) (pass : Nat) (ix : Indexer) :
    (tasks.foldl (fun ix t => ix.perform pass t) ix).files.gated = ix.files.gated ∧
      (tasks.foldl (fun ix t => ix.perform pass t) ix).running = ix.running := by
  induction tasks generalizing ix with
  | nil => exact ⟨rfl, rfl⟩
  | cons t rest ih =>
      have hstep : (ix.perform pass t).files.gated = ix.files.gated ∧
          (ix.perform pass t).running = ix.running := by
        unfold perform
        split
        · exact ⟨rfl, rfl⟩
        · cases t.hold <;> exact ⟨rfl, rfl⟩
      obtain ⟨hgated, hrunning⟩ := ih (ix.perform pass t)
      exact ⟨hgated.trans hstep.1, hrunning.trans hstep.2⟩

theorem gated_advance (ix : Indexer) : (ix.act .advance).files.gated = ix.files.gated := by
  by_cases hjoining : ∃ r summary tasks, ix.running = some r ∧ r.phase = .joining summary tasks
  · obtain ⟨r, summary, tasks, running, phase⟩ := hjoining
    simp only [act, advance?, running, advancePass?, phase]
    split
    · rfl
    · split
      · rfl
      · exact (foldl_perform_frame _ _ _).1
  · have hevent := act_event ix .advance
    generalize ix.act .advance = ix' at hevent ⊢
    cases hevent with
    | files change => cases change
    | turn h => rw [(waits_settings (.inr h)).1]
    | walk => exact Walk.gated_counted _ _
    | work running phase => exact absurd ⟨_, _, _, running, phase⟩ hjoining
    | _ => rfl

theorem isHeld_of_open (hopen : ix.files.gated = OrderedMap.empty) (t : Task) :
    ix.isHeld t = false := by
  cases hhold : t.hold <;> simp [isHeld, hhold, Memory.isGated, hopen]

/-- A pass that has published and that nothing holds back is over after two steps. -/
theorem advance_joining {summary : Summary} {tasks : List Task} (running : ix.running = some r)
    (phase : r.phase = .joining summary tasks) (hopen : ix.files.gated = OrderedMap.empty) :
    (ix.act .advance).running = none ∨
      (ix.act .advance).running = some { r with phase := .joining summary [] } := by
  have hfree := isHeld_of_open hopen
  have hheld : tasks.filter ix.isHeld = [] := by simp [hfree]
  simp only [act, advance?, running, advancePass?, phase, hheld]
  split
  · exact .inl rfl
  · rename_i hmore
    rw [if_neg (by simpa [hfree] using hmore)]
    exact .inr (foldl_perform_frame _ _ _).2

/-- Steps lead to where nothing runs, and those that wait stay where they are. -/
def Frees (ix : Indexer) : Prop :=
  ∃ n, (ix.run (List.replicate n .advance)).running = none ∧
    (ix.run (List.replicate n .advance)).queue = ix.queue

theorem Frees.step (running : ix.running = some r) (h : (ix.act .advance).Frees) : ix.Frees := by
  obtain ⟨n, hidle, hqueue⟩ := h
  exact ⟨n + 1, hidle, hqueue.trans (queue_advance running)⟩

theorem frees_idle (idle : ix.running = none) : ix.Frees := ⟨0, idle, rfl⟩

theorem frees_joined {summary : Summary} (running : ix.running = some r)
    (phase : r.phase = .joining summary []) : ix.Frees :=
  .step running
    (frees_idle (by simp [act, advance?, running, advancePass?, phase, endPass, report]))

theorem frees_joining {summary : Summary} {tasks : List Task} (running : ix.running = some r)
    (phase : r.phase = .joining summary tasks) (hopen : ix.files.gated = OrderedMap.empty) :
    ix.Frees := by
  refine .step running ?_
  rcases advance_joining running phase hopen with hidle | hjoined
  · exact frees_idle hidle
  · exact frees_joined hjoined rfl

/-- A pass whose walk has ended is over, or has published. -/
theorem conclude_running (ix : Indexer) (r : Running) (w : Walk) (ending : Walk.Ending) :
    (ix.conclude r w ending).running = none ∨ ∃ summary tasks,
      (ix.conclude r w ending).running = some { r with phase := .joining summary tasks } := by
  unfold conclude
  split
  · exact .inl rfl
  · exact .inl rfl
  · split
    · exact .inl rfl
    · dsimp only
      split
      · exact .inl rfl
      · exact .inr ⟨_, _, rfl⟩

theorem frees_ended {w : Walk} {ending : Walk.Ending} (running : ix.running = some r)
    (phase : r.phase = .walking w) (ended : w.ending? = some ending)
    (hopen : ix.files.gated = OrderedMap.empty) : ix.Frees := by
  refine .step running ?_
  have hrunning := conclude_running ix r w ending
  rw [← act_advance_ended running phase ended] at hrunning
  rcases hrunning with hidle | ⟨summary, tasks, hjoining⟩
  · exact frees_idle hidle
  · exact frees_joining hjoining rfl ((gated_advance ix).trans hopen)

end Advance

section Settle

variable {m : Memory} {ix : Indexer}

theorem Undisturbed.frees_walking (hix : ix.Undisturbed m)
    (hopen : ix.files.gated = OrderedMap.empty) {r : Running} {w : Walk}
    (running : ix.running = some r) (phase : r.phase = .walking w) : ix.Frees := by
  obtain ⟨symbols, hw⟩ := hix.roams running phase
  generalize hplan : r.plan = plan at hw
  generalize hentry : r.project.entry = entry at hw
  -- The pass goes on from walk to walk, of which there is no infinite sequence.
  have hwf : WellFounded (Walk.Succeeds plan m entry symbols) := Walk.wellFounded_succeeds
  induction w using hwf.induction generalizing ix r with
  | _ w ih =>
      cases hending : w.ending? with
      | some ending => exact frees_ended running phase hending hopen
      | none =>
          have hexplores : Walk.Explores plan m entry symbols w := by
            refine hw.resolve_left fun hended => ?_
            simp [Walk.ending?, hended] at hending
          subst hplan
          let w₁ := w.step r.plan m.view (ix.isCancelled r.plan.pass)
          have hrunning : (ix.act .advance).running = some { r with phase := .walking w₁ } := by
            rw [act_advance_walk running phase hending (w.not_heldBack hopen), hix.files.view_eq]
          refine .step running ?_
          exact ih w₁ ⟨hexplores, hending, _, Walk.step_move _ _ _ _⟩
            (event_undisturbed (act_event ix .advance) rfl hix) ((gated_advance ix).trans hopen)
            hrunning rfl rfl hentry (hw.step (hix.previous running phase) _)

/-- The running pass comes to its end. -/
theorem Undisturbed.frees (hix : ix.Undisturbed m) (hopen : ix.files.gated = OrderedMap.empty) :
    ix.Frees := by
  cases hrunning : ix.running with
  | none => exact frees_idle hrunning
  | some r =>
      cases hphase : r.phase with
      | walking w => exact hix.frees_walking hopen hrunning hphase
      | joining summary tasks => exact frees_joining hrunning hphase hopen

theorem gated_run_advance (ix : Indexer) (n : Nat) :
    (ix.run (List.replicate n .advance)).files.gated = ix.files.gated := by
  induction n generalizing ix with
  | zero => rfl
  | succ n ih => exact (ih _).trans (gated_advance ix)

/-- When nothing runs, the next call that waits gets its turn. -/
theorem queue_advance_idle {job : Job} {rest : List Job} (idle : ix.running = none)
    (next : ix.queue = job :: rest) : (ix.act .advance).queue = rest := by
  have hact : ix.act .advance = { ix with queue := rest }.grant job := by
    simp [act, advance?, idle, next]
  rw [hact]
  cases job with
  | stop call => rfl
  | pass call id project request =>
      simp only [grant]
      split <;> rfl

theorem callCount_le_run (ix : Indexer) (actions : List Action) :
    ix.callCount ≤ (ix.run actions).callCount := by
  refine run_preserves (P := fun ix' => ix.callCount ≤ ix'.callCount) ?_ (Nat.le_refl _) actions
  intro ix₁ ix₂ a h hle
  cases h with
  | ask asks waits | stop waits =>
      rw [(waits_queue waits).2]
      exact Nat.le_succ_of_le hle
  | turn h =>
      rw [(waits_queue (.inr h)).2]
      exact hle
  | refuse | configure => exact Nat.le_succ_of_le hle
  | _ => exact hle

/-- All calls come to their ends. -/
theorem Undisturbed.settles (hix : ix.Undisturbed m)
    (hopen : ix.files.gated = OrderedMap.empty) :
    ∃ n, (ix.run (List.replicate n .advance)).running = none ∧
      (ix.run (List.replicate n .advance)).queue = [] := by
  generalize hqueue : ix.queue = queue
  induction queue generalizing ix with
  | nil =>
      obtain ⟨n, hidle, hsame⟩ := hix.frees hopen
      exact ⟨n, hidle, hsame.trans hqueue⟩
  | cons job rest ih =>
      obtain ⟨n, hidle, hsame⟩ := hix.frees hopen
      have hnext := queue_advance_idle hidle (hsame.trans hqueue)
      have hundisturbed := event_undisturbed (act_event _ .advance) rfl (advance_undisturbed hix n)
      have hgated := (gated_advance _).trans ((gated_run_advance ix n).trans hopen)
      obtain ⟨k, hk⟩ := ih hundisturbed hgated hnext
      refine ⟨n + (k + 1), ?_⟩
      rw [← List.replicate_append_replicate, run_append]
      exact hk

/-- Every call that was made comes to an outcome. -/
theorem Undisturbed.outcomes (hix : ix.Undisturbed m)
    (hopen : ix.files.gated = OrderedMap.empty) :
    ∃ n, ∀ k < ix.callCount, ∃ o,
      (k, o) ∈ (ix.run (List.replicate n .advance)).outcomes := by
  obtain ⟨n, hidle, hqueue⟩ := hix.settles hopen
  refine ⟨n, fun k hk => ?_⟩
  have hcount := callCount_le_run ix (List.replicate n .advance)
  have hcalls : k ∈ (ix.run (List.replicate n .advance)).calls :=
    (advance_undisturbed hix n).fresh.sound.accounted.mem_iff.2 (List.mem_range.2 (by omega))
  simpa [calls, pendingCalls, hidle, hqueue] using hcalls

/-- A pass that has just got its turn is undisturbed. -/
theorem Begins.undisturbed {a : Action} {r : Running} (hix : ix.Fresh) (h : ix.Begins a r) :
    (ix.act a).Undisturbed (ix.act a).files := by
  refine ⟨event_fresh (act_event ix a) hix, .refl _, ?_⟩
  intro r' w running phase
  obtain rfl := Option.some.inj (h.turn.symm.trans running)
  obtain ⟨symbols, hphase⟩ := h.phase
  cases hphase.symm.trans phase
  exact ⟨symbols, Walk.roams_start _ _ _ _⟩

/-- As long as no file changes, the walk of a pass goes through the import graph of the files as
they were when its turn came. -/
theorem Begins.roams {a : Action} {r : Running} {symbols : Symbols} (hix : ix.Fresh)
    (h : ix.Begins a r) (phase : r.phase = .walking (Walk.start r.project.entry symbols))
    {during : List Action} (hstill : ∀ b ∈ during, b.changesFiles = false) :
    ((ix.act a).run during).Pursues r.call r.plan
      (Walk.Roams r.plan (ix.act a).files r.project.entry symbols) := by
  have hundisturbed := h.undisturbed hix
  have hprevious := hundisturbed.previous h.turn phase
  have hrun : ((ix.act a).run during).Undisturbed (ix.act a).files ∧
      ((ix.act a).run during).Pursues r.call r.plan
        (Walk.Roams r.plan (ix.act a).files r.project.entry symbols) := by
    refine run_preserves_mem (P := fun ix' => ix'.Undisturbed (ix.act a).files ∧ ix'.Pursues
      r.call r.plan (Walk.Roams r.plan (ix.act a).files r.project.entry symbols)) ?_
      ⟨hundisturbed, hundisturbed.fresh.sound.pursues h.turn phase (Walk.roams_start _ _ _ _)⟩
    rintro ix₁ ix₂ b hb hevent ⟨hix₁, hpursues⟩
    refine ⟨event_undisturbed hevent (hstill b hb) hix₁, event_pursues hevent ?_ hpursues⟩
    intro w cancelled hw
    rw [hix₁.files.view_eq]
    exact hw.step hprevious cancelled
  exact hrun.2

end Settle

/-- Every pass terminates. When a pass gets its turn, the keys that it can come to are finitely
many: the entry file and the files that exist, under names that it starts with or that texts it
can load define. As long as no file changes, its walk comes to such keys only, each key that a
step registers leaves fewer of them to register, and the walk has an end. So once no read is held
back, steps alone lead to the outcome of the pass. -/
theorem pass_terminates (config : Config) (before during : List Action) (a : Action) (r : Running)
    (begins : ((new config {}).run before).Begins a r)
    (still : ∀ b ∈ during, b.changesFiles = false) :
    let m := (((new config {}).run before).act a).files
    let ix := (((new config {}).run before).act a).run during
    let entry := r.project.entry
    ∃ symbols, r.phase = .walking (Walk.start entry symbols) ∧
      (r.plan.keys m entry symbols).Finite ∧
      (∀ r' w, ix.running = some r' → r'.call = r.call → r'.phase = .walking w →
        (∀ p s, w.ComesTo p s → (p.components, s) ∈ r.plan.keys m entry symbols) ∧
        ∀ cancelled p s, w.index.contains p s = false →
          (w.step r.plan m.view cancelled).index.contains p s = true →
          (w.step r.plan m.view cancelled).unregistered r.plan m entry symbols ⊂
            w.unregistered r.plan m entry symbols) ∧
      (∃ n ending, ((Walk.start entry symbols).run r.plan m.view n).ending? = some ending) ∧
      (ix.files.gated = OrderedMap.empty →
        ∃ n o, (r.call, o) ∈ (ix.run (List.replicate n .advance)).outcomes) := by
  intro m ix entry
  have hfresh : ((new config {}).run before).Fresh :=
    fresh_run config (by intro p f hf; cases hf) before
  have hundisturbed := begins.undisturbed hfresh
  obtain ⟨symbols, phase⟩ := begins.phase
  have hpursues := begins.roams hfresh phase still
  refine ⟨symbols, phase, Plan.finite_keys, ?_, ?_, ?_⟩
  · intro r' w running hcall phase'
    rcases (hpursues.leads running hcall phase').2 with hended | hw
    · -- A walk that has given up comes to nothing any more.
      refine ⟨fun p s hcomes => ?_, fun cancelled p s hnew hp => ?_⟩
      · rcases hcomes with stage | stage | ⟨_, stage⟩ <;> cases hended.symm.trans stage
      · rw [Walk.move_ended (Walk.step_move _ _ _ _) hended, hnew] at hp
        cases hp
    · exact ⟨fun p s => hw.mem_keys, fun cancelled p s hnew hp =>
        hw.unregistered_ssubset (Walk.step_move _ _ _ _) hnew hp⟩
  · have hprevious := hundisturbed.previous begins.turn phase
    exact (Walk.run_explores hprevious 0).run_ends hprevious
  · intro hopen
    obtain ⟨n, hn⟩ := (run_undisturbed hundisturbed still).outcomes hopen
    exact ⟨n, hn r.call hpursues.made⟩

/-- Two files that import each other and define and undefine a name on each round, and a third one
that imports itself under a new name. -/
theorem pass_terminates_cyclic :
    let ix := (new {} {}).run
      [.write ⟨"/p/main.asm"⟩ "#import \"a.asm\"\n#define M\n#import \"c.asm\"\n",
        .write ⟨"/p/a.asm"⟩ "#define A\n#import \"main.asm\"\n#undef A\n#import \"main.asm\"\n",
        .write ⟨"/p/c.asm"⟩ "#define C\n#import \"c.asm\"\n"]
    ∃ r n o, ix.Begins (.call (.initial ⟨"/p"⟩ {})) r ∧
      (r.call, o) ∈ ((ix.act (.call (.initial ⟨"/p"⟩ {}))).run
        (List.replicate n .advance)).outcomes := by
  intro ix
  obtain ⟨r, hr⟩ : ∃ r, (ix.act (.call (.initial ⟨"/p"⟩ {}))).running = some r :=
    Option.isSome_iff_exists.1 (by decide +kernel)
  have hbegins : ix.Begins (.call (.initial ⟨"/p"⟩ {})) r := by
    refine ⟨?_, hr⟩
    intro r' hr'
    cases hr'
  obtain ⟨_, _, _, _, _, hends⟩ := pass_terminates _ _ [] _ _ hbegins (by simp)
  obtain ⟨n, o, ho⟩ := hends rfl
  exact ⟨r, n, o, hbegins, ho⟩

end Indexer

end AsmIndex

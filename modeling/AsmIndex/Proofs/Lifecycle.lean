import AsmIndex.Proofs.PassRecords

/-!
The lifecycle of passes is consistent: the state of the indexer, its active pass, the count of its
passes and the pass whose turn it is are changed at different moments, and agree at every moment.
-/

namespace AsmIndex

theorem tell_cancelled (notice : Notice) (subscribers : List Subscriber) :
    (tell notice subscribers).cancelled =
      (notice.cancelled ||
        (subscribers.zip (tell notice subscribers).notices).any fun x =>
          (x.1.react x.2.2).cancels) := by
  induction subscribers generalizing notice with
  | nil => simp [tell]
  | cons s rest ih => simp [tell, ih, Bool.or_assoc]

namespace Indexer

/-- By an action a subscriber that is told or was told of a pass cancels it. -/
inductive SubscriberCancels (ix : Indexer) : Action → Nat → Prop
  | later {id n} (told : n ∈ ix.notices) (pass : n.2.snapshot.pass = id) :
      SubscriberCancels ix (.revoke id) id
  | atOnce {a p x} (published : ix.publication? a = some p)
      (told : x ∈ p.subscribers.zip p.notices)
      (cancels : (x.1.react x.2.2).cancels = true) : SubscriberCancels ix a p.new.pass

/-- In a run a subscriber cancels a pass that it was told of. -/
def CancelledBySubscriber (ix : Indexer) (actions : List Action) (id : Nat) : Prop :=
  ∃ before a after, actions = before ++ a :: after ∧ (ix.run before).SubscriberCancels a id

theorem CancelledBySubscriber.append {ix : Indexer} {actions : List Action} {id : Nat}
    (h : ix.CancelledBySubscriber actions id) (more : List Action) :
    ix.CancelledBySubscriber (actions ++ more) id := by
  obtain ⟨before, a, after, rfl, hcancels⟩ := h
  exact ⟨before, a, after ++ more, by simp, hcancels⟩

/-- The calls whose passes are executed in a run, once for each moment at which a pass is. -/
def executed (ix : Indexer) : List Action → List Nat
  | [] => ix.running.toList.map Running.call
  | a :: rest => ix.running.toList.map Running.call ++ (ix.act a).executed rest

theorem executed_append_singleton (ix : Indexer) (before : List Action) (a : Action) :
    ix.executed (before ++ [a]) =
      ix.executed before ++ ((ix.run before).act a).running.toList.map Running.call := by
  induction before generalizing ix with
  | nil => rfl
  | cons b rest ih => simp [executed, ih, run_cons]

/-- A pass that was not cancelled before it publishes is cancelled by a subscriber. -/
theorem exists_cancels_of_announced {ix : Indexer} {r : Running} {w : Walk}
    (valid : ix.isCancelled r.plan.pass = false) (h : (ix.announced r w).cancelled = true) :
    ∃ x ∈ ix.subscribers.zip (ix.announced r w).notices, (x.1.react x.2.2).cancels = true := by
  rw [announced, tell_cancelled, Bool.or_eq_true] at h
  rcases h with h | h
  · rw [valid] at h
    cases h
  · exact List.any_eq_true.1 h

section Active

variable {ix ix' : Indexer} {a : Action} {id : Nat}

theorem active_endPass {r : Running} {o : Outcome} (h : (ix.endPass r o).active = some id) :
    ix.active = some id := by
  simp only [endPass, report] at h
  split at h
  · cases h
  · exact h

/-- Only a subscriber cancels a pass that stays active. -/
theorem cancelled_active (h : Event ix a ix') (hact : ix' = ix.act a) (hix : ix.Sound)
    (hactive : ix'.active = some id) (hcancelled : id ∈ ix'.cancelled) :
    (ix.active = some id ∧ id ∈ ix.cancelled) ∨ ix.SubscriberCancels a id := by
  cases h with
  | ask asks waits =>
      obtain ⟨_, _, _, hactive', hcancelled'⟩ := waits_frame waits
      rw [hactive'] at hactive
      rw [hcancelled'] at hcancelled
      cases hactive
      exact absurd hcancelled hix.ordered.next_not_cancelled
  | stop waits =>
      obtain ⟨_, _, _, hactive', _⟩ := waits_frame waits
      rw [hactive'] at hactive
      cases hactive
  | turn h =>
      obtain ⟨_, _, _, hactive', hcancelled'⟩ := waits_frame (.inr h)
      exact .inl ⟨hactive' ▸ hactive, hcancelled' ▸ hcancelled⟩
  | revoke told =>
      obtain ⟨n, hn, rfl⟩ := told
      rcases List.mem_cons.1 hcancelled with rfl | hcancelled
      · exact .inr (.later hn rfl)
      · exact .inl ⟨hactive, hcancelled⟩
  | abandon _ _ _ _ => exact .inl ⟨active_endPass hactive, hcancelled⟩
  | fail _ _ _ => exact .inl ⟨active_endPass hactive, hcancelled⟩
  | unchanged _ _ _ _ _ => exact .inl ⟨active_endPass hactive, hcancelled⟩
  | join _ _ => exact .inl ⟨active_endPass hactive, hcancelled⟩
  | @publish r w running phase _ valid _ =>
      have hpublished : ix.publication? .advance = some (ix.publicationOf r w) := by
        rw [publication?, ← hact, publicationTo?_publish hix running phase]
      rw [publish_eq] at hcancelled
      dsimp only at hcancelled
      split at hcancelled
      · rename_i htold
        rcases List.mem_cons.1 hcancelled with rfl | hcancelled
        · obtain ⟨x, hx, hcancels⟩ := exists_cancels_of_announced valid htold
          exact .inr (.atOnce hpublished hx hcancels)
        · exact .inl ⟨hactive, hcancelled⟩
      · exact .inl ⟨hactive, hcancelled⟩
  | _ => exact .inl ⟨hactive, hcancelled⟩

end Active

/-- The state of an indexer in which the passes of the calls `executed` were executed so far. -/
structure Reflects (executed : List Nat) (ix : Indexer) : Prop where
  running : ∀ r, ix.running = some r → ix.state = .running ∧ executed.getLast? = some r.call
  ended : ix.running = none → ∀ k, executed.getLast? = some k →
    ∃ o, (k, o) ∈ ix.outcomes ∧ Leaves o ix.state
  unused : executed = [] →
    (ix.state = .idle ∧ ∀ k, (k, .failed .noProject) ∉ ix.outcomes) ∨
      (ix.state = .failed ∧ ∃ k, (k, .failed .noProject) ∈ ix.outcomes)
  established : ix.project = none → executed = []

theorem Reflects.not_running {executed : List Nat} {ix : Indexer} (h : Reflects executed ix)
    (hfree : ix.running = none) : ix.state ≠ .running := by
  intro hstate
  cases hlast : executed.getLast? with
  | none =>
      rcases h.unused (List.getLast?_eq_none_iff.1 hlast) with ⟨hidle, _⟩ | ⟨hfailed, _⟩
      · cases hstate.symm.trans hidle
      · cases hstate.symm.trans hfailed
  | some k =>
      obtain ⟨o, _, hleaves⟩ := h.ended hfree k hlast
      rw [hstate] at hleaves
      cases hleaves

theorem event_reflects {ix ix' : Indexer} {a : Action} (h : Event ix a ix') {calls : List Nat}
    (hidle : ix.project = none → ix.running = none)
    (hidle' : ix'.project = none → ix'.running = none) (hix : Reflects calls ix) :
    Reflects (calls ++ ix'.running.toList.map Running.call) ix' := by
  have hestablished : ix'.project = none → calls ++ ix'.running.toList.map Running.call = [] := by
    intro hnone
    simp [hix.established (event_project h hnone), hidle' hnone]
  cases event_shift h with
  | stays state executed accepted =>
      refine ⟨?_, ?_, ?_, hestablished⟩
      · intro r hr
        obtain ⟨r₀, hr₀, hcall⟩ :=
          Option.map_eq_some_iff.1 (executed.symm.trans (by rw [hr]; rfl))
        refine ⟨state.trans (hix.running r₀ hr₀).1, by simp [hr]⟩
      · intro hfree k hk
        rw [hfree, Option.map_none] at executed
        simp only [hfree, Option.toList_none, List.map_nil, List.append_nil] at hk
        obtain ⟨o, ho, hleaves⟩ := hix.ended (Option.map_eq_none_iff.1 executed.symm) k hk
        exact ⟨o, event_outcomes h ho, state ▸ hleaves⟩
      · intro hcalls
        rcases hix.unused (List.append_eq_nil_iff.1 hcalls).1 with
          ⟨hidle, hnone⟩ | ⟨hfailed, k, hk⟩
        · exact .inl ⟨state.trans hidle, fun k hk => hnone k (accepted k hk)⟩
        · exact .inr ⟨state.trans hfailed, k, event_outcomes h hk⟩
  | starts free executed state =>
      refine ⟨?_, ?_, ?_, hestablished⟩
      · intro r hr
        exact ⟨state, by simp [hr]⟩
      · intro hfree
        rw [executed] at hfree
        cases hfree
      · simp [executed]
  | @ends r o executed free reported state =>
      have hlast := (hix.running r executed).2
      have hcalls : calls ++ ix'.running.toList.map Running.call = calls := by simp [free]
      rw [hcalls] at hestablished ⊢
      refine ⟨?_, ?_, ?_, hestablished⟩
      · rw [free]
        rintro r' ⟨⟩
      · intro _ k hk
        cases hlast.symm.trans hk
        exact ⟨o, reported, state⟩
      · rintro rfl
        cases hlast
  | refused missing same reported state =>
      -- Without a project no pass was ever executed.
      have hfree : ix'.running = none := same.trans (hidle missing)
      have hcalls : calls ++ ix'.running.toList.map Running.call = [] := by
        simp [hix.established missing, hfree]
      rw [hcalls] at hestablished ⊢
      refine ⟨?_, ?_, ?_, hestablished⟩
      · rw [hfree]
        rintro r ⟨⟩
      · rintro _ k ⟨⟩
      · exact fun _ => .inr ⟨state, _, reported⟩

/-- What is known of the state of the indexer after every run. -/
structure Lived (ix : Indexer) (actions : List Action) : Prop where
  kept : Kept (ix.passes actions) (ix.run actions)
  reflects : Reflects (ix.executed actions) (ix.run actions)
  valid : ∀ id, (ix.run actions).active = some id → id ∈ (ix.run actions).cancelled →
    ix.CancelledBySubscriber actions id

theorem lived_run (config : Config) (files : Memory) (actions : List Action) :
    Lived (new config files) actions := by
  induction actions using List.reverseRecOn with
  | nil =>
      refine ⟨kept_run config files [], ?_, ?_⟩
      · constructor <;> simp [executed, run_nil, new]
      · rintro id ⟨⟩
  | append_singleton before a ih =>
      have hkept := kept_run config files (before ++ [a])
      have hevent := act_event ((new config files).run before) a
      have hrun : (new config files).run (before ++ [a]) =
          ((new config files).run before).act a := by
        rw [run_append, run_cons, run_nil]
      refine ⟨hkept, ?_, ?_⟩
      · rw [hrun, executed_append_singleton]
        refine event_reflects hevent ?_ ?_ ih.reflects
        · exact ih.kept.assigned.idle
        · exact hrun ▸ hkept.assigned.idle
      · intro id hactive hcancelled
        rw [hrun] at hactive hcancelled
        rcases cancelled_active hevent rfl ih.kept.sound hactive hcancelled with
          ⟨hactive, hcancelled⟩ | hcancels
        · exact (ih.valid id hactive hcancelled).append [a]
        · exact ⟨before, a, [], rfl, hcancels⟩

/-- The lifecycle of passes is consistent at every moment of every run. The indexer is in the
running state exactly while a pass is executed. Otherwise its state is that of the outcome of the
pass executed last; where none was, it is idle, or a call was refused for want of a project and it
has failed. The active pass is the latest one, its call is not over, and it is not cancelled
unless a subscriber cancelled it. Passes are counted as they are started. When no call is pending,
no pass is active, executed or waiting. -/
theorem lifecycle_consistent (config : Config) (files : Memory) (actions : List Action) :
    let start := new config files
    let ix := start.run actions
    (ix.state = .running ↔ ∃ r, ix.running = some r) ∧
      (ix.running = none →
        (∀ k, (start.executed actions).getLast? = some k →
          ∃ o, (k, o) ∈ ix.outcomes ∧ Leaves o ix.state) ∧
        (start.executed actions = [] →
          (ix.state = .idle ∧ ∀ k, (k, .failed .noProject) ∉ ix.outcomes) ∨
            (ix.state = .failed ∧ ∃ k, (k, .failed .noProject) ∈ ix.outcomes))) ∧
      (∀ id, ix.active = some id →
        id = ix.passCount ∧
          (∃ k, (k, id) ∈ start.passes actions ∧ ∀ o, (k, o) ∉ ix.outcomes) ∧
          (ix.isCancelled id = true → start.CancelledBySubscriber actions id)) ∧
      (start.passes actions).map Prod.snd = List.range' 1 ix.passCount ∧
      ((∀ k < ix.callCount, ∃ o, (k, o) ∈ ix.outcomes) →
        ix.active = none ∧ ix.running = none ∧ ix.queue = [] ∧ ix.state ≠ .running) := by
  intro start ix
  obtain ⟨⟨hsound, hattended, hassigned⟩, hreflects, hvalid⟩ :=
    lived_run config files actions
  have hstate : ix.state = .running → ∃ r, ix.running = some r := by
    intro hrunning
    by_contra hnone
    have hfree : ix.running = none :=
      Option.eq_none_iff_forall_ne_some.2 fun r hr => hnone ⟨r, hr⟩
    exact hreflects.not_running hfree hrunning
  refine ⟨⟨hstate, ?_⟩, ?_, ?_, hassigned.numbers, ?_⟩
  · rintro ⟨r, hr⟩
    exact (hreflects.running r hr).1
  · intro hfree
    exact ⟨hreflects.ended hfree, hreflects.unused⟩
  · intro id hactive
    obtain ⟨k, hk, hpending⟩ := hassigned.of_active hattended hactive
    refine ⟨hsound.ordered.latest id hactive,
      ⟨k, hk, hsound.accounted.not_mem_outcomes hpending⟩, ?_⟩
    intro hcancelled
    exact hvalid id hactive (by simpa [isCancelled] using hcancelled)
  · intro hover
    obtain ⟨hactive, hfree, hqueue⟩ := idle_of_over hsound.accounted hattended hover
    exact ⟨hactive, hfree, hqueue, hreflects.not_running hfree⟩

end Indexer

end AsmIndex

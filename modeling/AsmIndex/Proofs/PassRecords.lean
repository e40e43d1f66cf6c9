import AsmIndex.Proofs.PassTrace
import AsmIndex.Proofs.Publication

/-!
Records of passes. Each call that starts a pass gives it the next number; the pass waits, is
executed or is over, and all passes that wait or are executed are on record with the calls that
started them. The pass that is active is among them. The state of the indexer changes only where a
pass starts or ends, and where a call is refused.
-/

namespace AsmIndex

namespace Ledger

/-- The active pass has not ended, and as long as it has not published it is not cancelled. -/
structure Attended (l : Ledger) : Prop where
  alive : ∀ id, l.active = some id → id ∈ l.pending ∨ l.joining = some id
  valid : ∀ id ∈ l.pending, l.active = some id → id ∉ l.cancelled

variable {l : Ledger}

theorem Ordered.next_not_cancelled (h : l.Ordered) :
    l.asked + 1 ∉ l.active.toList ++ l.cancelled := by
  intro hmem
  rcases List.mem_append.1 hmem with hactive | hcancelled
  · have hlatest := h.latest _ (by simpa using hactive)
    omega
  · have hle := h.cancelled _ hcancelled
    omega

theorem Ordered.head_not_mem (h : l.Ordered) {id : Nat} {rest : List Nat}
    (hpending : l.pending = id :: rest) : id ∉ rest := by
  intro hmem
  exact Nat.lt_irrefl _ ((List.pairwise_cons.1 (hpending ▸ h.sorted)).1 id hmem)

theorem Attended.ask (h : l.Ordered) :
    Attended { l with
      pending := l.pending ++ [l.asked + 1]
      asked := l.asked + 1
      active := some (l.asked + 1)
      cancelled := l.active.toList ++ l.cancelled } where
  alive := by
    rintro id ⟨⟩
    exact .inl (List.mem_append_right _ (List.mem_singleton_self _))
  valid := by
    rintro id _ ⟨⟩
    exact h.next_not_cancelled

theorem Attended.stop (l : Ledger) :
    Attended { l with active := none, cancelled := l.active.toList ++ l.cancelled } where
  alive := by rintro id ⟨⟩
  valid := by rintro id _ ⟨⟩

theorem Attended.revoke (h : l.Attended) {id : Nat} (hid : id ∉ l.pending) :
    Attended { l with cancelled := id :: l.cancelled } where
  alive := h.alive
  valid := by
    intro id' hid' hactive
    rw [List.mem_cons, not_or]
    refine ⟨?_, h.valid id' hid' hactive⟩
    rintro rfl
    exact hid hid'

theorem Attended.dismiss (h : l.Attended) {id : Nat} {rest : List Nat}
    (hpending : l.pending = id :: rest) (hcancelled : id ∈ l.cancelled) :
    Attended { l with pending := rest } where
  alive := by
    intro id' hactive
    rcases h.alive id' hactive with hmem | hjoining
    · rw [hpending, List.mem_cons] at hmem
      refine .inl (hmem.resolve_left ?_)
      rintro rfl
      exact h.valid id' (by simp [hpending]) hactive hcancelled
    · exact .inr hjoining
  valid := fun id' hid' => h.valid id' (by simp [hpending, hid'])

/-- The pass that is executed ends, and all others that were left are left. -/
theorem Attended.finish (h : l.Attended) (id : Nat) (pending : List Nat)
    (hsub : pending ⊆ l.pending) (hleft : ∀ id', id' ∈ l.pending ∨ l.joining = some id' →
      id' ≠ id → id' ∈ pending) :
    Attended { l with
      pending
      joining := none
      active := if l.active == some id then none else l.active } := by
  by_cases hactive : l.active = some id
  · simp only [hactive, beq_self_eq_true, if_true]
    exact ⟨by rintro id' ⟨⟩, by rintro id' _ ⟨⟩⟩
  · simp only [beq_iff_eq, hactive, if_false]
    refine ⟨fun id' hid' => .inl (hleft id' (h.alive id' hid') ?_),
      fun id' hid' => h.valid id' (hsub hid')⟩
    rintro rfl
    exact hactive hid'

theorem Attended.publish (h : l.Attended) (hordered : l.Ordered) (hwalking : l.joining = none)
    {id : Nat} {rest told : List Nat} {cancelled : Bool} (hpending : l.pending = id :: rest) :
    Attended { l with
      pending := rest
      joining := some id
      published := id
      cancelled := if cancelled then id :: l.cancelled else l.cancelled
      told := told } where
  alive := by
    intro id' hid'
    rcases h.alive id' hid' with hmem | hjoining
    · rw [hpending, List.mem_cons] at hmem
      rcases hmem with rfl | hmem
      · exact .inr rfl
      · exact .inl hmem
    · rw [hwalking] at hjoining
      cases hjoining
  valid := by
    intro id' hid' hactive
    have hvalid := h.valid id' (by simp [hpending, hid']) hactive
    dsimp only
    split
    · rw [List.mem_cons, not_or]
      refine ⟨?_, hvalid⟩
      rintro rfl
      exact hordered.head_not_mem hpending hid'
    · exact hvalid

end Ledger

namespace Indexer

theorem joining_of_walking {ix : Indexer} {r : Running} {w : Walk} (running : ix.running = some r)
    (phase : r.phase = .walking w) : ix.ledger.joining = none := by
  simp [ledger, running, Running.joining?, phase]

theorem turn_attended {ix ix' : Indexer} (h : Turn ix ix') (hix : ix.ledger.Attended) :
    ix'.ledger.Attended := by
  cases h with
  | release free next =>
      convert hix using 1
      simp [ledger, report, next, List.filterMap_cons, Job.pass?]
  | @dismiss call id project request rest free next cancelled =>
      have hpending : ix.ledger.pending = id :: rest.filterMap Job.pass? := by
        simp [ledger, free, next, Job.pass?]
      convert hix.dismiss hpending (by simpa [isCancelled, ledger] using cancelled) using 1
      simp [ledger, report, free]
  | start free next _ =>
      convert hix using 1
      simp [ledger, free, next, begun, planOf, Running.walking?, Running.joining?, Job.pass?]

theorem endPass_attended {ix : Indexer} {r : Running} {outcome : Outcome}
    (running : ix.running = some r) (hix : ix.ledger.Attended) :
    (ix.endPass r outcome).ledger.Attended := by
  refine hix.finish r.plan.pass (ix.queue.filterMap Job.pass?) (List.subset_append_right _ _) ?_
  intro id hid hne
  cases phase : r.phase with
  | walking w =>
      rw [pending_of_walking running phase, joining_of_walking running phase] at hid
      simpa [hne] using hid
  | joining summary tasks =>
      rw [pending_of_joining running phase] at hid
      simpa [ledger, running, Running.joining?_eq phase, hne.symm] using hid

theorem event_attended {ix ix' : Indexer} {a : Action} (h : Event ix a ix')
    (hordered : ix.ledger.Ordered) (hix : ix.ledger.Attended) : ix'.ledger.Attended := by
  cases h with
  | ask asks waits =>
      refine waits.preserves turn_attended ?_
      convert Ledger.Attended.ask hordered using 1
      simp [ledger, asked, askedJob, Job.pass?]
  | stop waits =>
      refine waits.preserves turn_attended ?_
      convert Ledger.Attended.stop ix.ledger using 1
      simp [ledger, stopping, Job.pass?]
  | revoke told =>
      obtain ⟨n, hn, rfl⟩ := told
      refine hix.revoke fun hmem => ?_
      have hle := hordered.told _ (List.mem_map.2 ⟨n, hn, rfl⟩)
      have hlt := hordered.after _ hmem
      omega
  | turn h => exact turn_attended h hix
  | walk running phase | work running phase =>
      convert hix using 1
      simp [ledger, running, phase, Running.walking?, Running.joining?]
  | abandon running _ _ _ => exact endPass_attended running hix
  | fail running _ _ => exact endPass_attended running hix
  | unchanged running _ _ _ _ => exact endPass_attended running hix
  | publish running phase _ _ _ =>
      rw [ledger_publish]
      exact hix.publish hordered (joining_of_walking running phase)
        (pending_of_walking running phase)
  | join running _ => exact endPass_attended running hix
  | _ => exact hix

/-- Whether a call starts a pass. -/
def startsPass (ix : Indexer) : Call → Bool
  | .initial _ _ => true
  | .parse _ => ix.project.isSome
  | .setConfig config =>
    ix.config.searchChanged config && ix.project.isSome && ix.lastRequest.isSome
  | .stop => false

/-- The pass that an action starts: the number of the call, and its own number. -/
def startedPass? (ix : Indexer) : Action → Option (Nat × Nat)
  | .call c => if ix.startsPass c then some (ix.callCount, ix.passCount + 1) else none
  | _ => none

/-- The passes that a run starts, in order, each with the number of its call and its own number. -/
def passes (ix : Indexer) : List Action → List (Nat × Nat)
  | [] => []
  | a :: rest => (ix.startedPass? a).toList ++ (ix.act a).passes rest

theorem passes_append (ix : Indexer) (before after : List Action) :
    ix.passes (before ++ after) = ix.passes before ++ (ix.run before).passes after := by
  induction before generalizing ix with
  | nil => rfl
  | cons a rest ih => simp [passes, ih, run_cons]

/-- What is known of the passes that were started. -/
structure Assigned (passes : List (Nat × Nat)) (ix : Indexer) : Prop where
  numbers : passes.map Prod.snd = List.range' 1 ix.passCount
  distinct : (passes.map Prod.fst).Nodup
  made : ∀ x ∈ passes, x.1 < ix.callCount
  running : ∀ r, ix.running = some r → (r.call, r.plan.pass) ∈ passes
  waiting : ∀ call id project request, .pass call id project request ∈ ix.queue →
    (call, id) ∈ passes
  stops : ∀ call, .stop call ∈ ix.queue → ∀ x ∈ passes, x.1 ≠ call
  established : ix.project = none → passes = []

section Assigned

variable {ix ix' : Indexer} {a : Action} {passes : List (Nat × Nat)}

theorem Assigned.number_le (h : Assigned passes ix) {x : Nat × Nat} (hx : x ∈ passes) :
    x.2 ≤ ix.passCount := by
  have hmem : x.2 ∈ passes.map Prod.snd := List.mem_map.2 ⟨x, hx, rfl⟩
  rw [h.numbers, List.mem_range'_1] at hmem
  omega

theorem Assigned.number_unique (h : Assigned passes ix) {call id id' : Nat}
    (hx : (call, id) ∈ passes) (hx' : (call, id') ∈ passes) : id = id' :=
  (Prod.mk.inj (List.inj_on_of_nodup_map h.distinct hx hx' rfl)).2

/-- Passes that are over, and passes that get their turn, stay on record. -/
theorem Assigned.of_subset (hix : Assigned passes ix) (hcount : ix'.passCount = ix.passCount)
    (hcalls : ix.callCount ≤ ix'.callCount)
    (hrunning : ∀ r, ix'.running = some r → (r.call, r.plan.pass) ∈ passes)
    (hqueue : ix'.queue ⊆ ix.queue) (hproject : ix'.project = none → ix.project = none) :
    Assigned passes ix' where
  numbers := by rw [hcount, hix.numbers]
  distinct := hix.distinct
  made := fun x hx => Nat.lt_of_lt_of_le (hix.made x hx) hcalls
  running := hrunning
  waiting := fun call id project request hmem => hix.waiting call id project request (hqueue hmem)
  stops := fun call hmem => hix.stops call (hqueue hmem)
  established := fun hnone => hix.established (hproject hnone)

theorem waits_assigned (h : Waits ix ix') (hix : Assigned passes ix) : Assigned passes ix' := by
  obtain ⟨_, _, hcount, _⟩ := waits_frame h
  obtain ⟨hqueue, hcalls⟩ := waits_queue h
  obtain ⟨_, _, hproject, _⟩ := waits_settings h
  refine hix.of_subset hcount (Nat.le_of_eq hcalls.symm) ?_ hqueue.subset (hproject ▸ id)
  rcases h with rfl | h
  · exact hix.running
  · cases h with
    | release | dismiss => exact hix.running
    | start _ next _ =>
        rintro r ⟨⟩
        exact hix.waiting _ _ _ _ (next ▸ List.mem_cons_self)

theorem Accounted.lt_callCount (h : ix.Accounted) {k : Nat} (hk : k ∈ ix.pendingCalls) :
    k < ix.callCount :=
  List.mem_range.1 (h.subset (List.mem_append_right _ hk))

theorem assigned_asked (hsound : ix.Accounted) (hix : Assigned passes ix) (config : Config)
    (project : Project) (request : Request) :
    Assigned (passes ++ [(ix.callCount, ix.passCount + 1)]) (ix.asked config project request) where
  numbers := by
    rw [List.map_append, hix.numbers, asked, List.range'_1_concat, Nat.add_comm 1]
    rfl
  distinct := by
    rw [List.map_append, List.nodup_append]
    refine ⟨hix.distinct, List.nodup_singleton _, ?_⟩
    rintro k hk k' hk' rfl
    obtain ⟨x, hx, rfl⟩ := List.mem_map.1 hk
    have hlt := hix.made x hx
    have heq : x.1 = ix.callCount := by simpa using hk'
    omega
  made := by
    intro x hx
    rcases List.mem_append.1 hx with hx | hx
    · exact Nat.lt_succ_of_lt (hix.made x hx)
    · rw [List.mem_singleton.1 hx]
      exact Nat.lt_succ_self _
  running := fun r hr => List.mem_append_left _ (hix.running r hr)
  waiting := by
    intro call id project' request' hmem
    rcases List.mem_append.1 hmem with hmem | hmem
    · exact List.mem_append_left _ (hix.waiting _ _ _ _ hmem)
    · cases List.mem_singleton.1 hmem
      exact List.mem_append_right _ (List.mem_singleton_self _)
  stops := by
    intro call hmem x hx
    have hmem : .stop call ∈ ix.queue := by simpa [asked, askedJob] using hmem
    rcases List.mem_append.1 hx with hx | hx
    · exact hix.stops call hmem x hx
    · have hlt := hsound.lt_callCount (k := call)
        (List.mem_append_right _ (List.mem_map.2 ⟨_, hmem, rfl⟩))
      rw [List.mem_singleton.1 hx]
      exact Nat.ne_of_gt hlt
  established := by rintro ⟨⟩

theorem assigned_stopping (hix : Assigned passes ix) : Assigned passes ix.stopping where
  numbers := hix.numbers
  distinct := hix.distinct
  made := fun x hx => Nat.lt_succ_of_lt (hix.made x hx)
  running := hix.running
  waiting := by
    intro call id project request hmem
    exact hix.waiting call id project request (by simpa [stopping] using hmem)
  stops := by
    intro call hmem x hx
    rcases List.mem_append.1 hmem with hmem | hmem
    · exact hix.stops call hmem x hx
    · cases List.mem_singleton.1 hmem
      exact Nat.ne_of_lt (hix.made x hx)
  established := hix.established

theorem Asks.startsPass {c : Call} {config : Config} {project : Project} {request : Request}
    (h : Asks ix c config project request) : ix.startsPass c = true := by
  cases h with
  | initial => rfl
  | parse _ established => simp [Indexer.startsPass, established]
  | setConfig changed established last => simp [Indexer.startsPass, changed, established, last]

theorem event_startedPass? (h : Event ix a ix') {x : Nat × Nat} (hx : ix.startedPass? a = some x) :
    x = (ix.callCount, ix.passCount + 1) ∧
      ∃ config project request, Waits (ix.asked config project request) ix' := by
  cases h with
  | ask asks waits =>
      simp only [startedPass?, asks.startsPass, if_true, Option.some.injEq] at hx
      exact ⟨hx.symm, _, _, _, waits⟩
  | refuse none kind =>
      rcases kind with ⟨_, rfl, _⟩ | rfl <;> simp [startedPass?, startsPass, none] at hx
  | configure quiet =>
      rcases quiet with ⟨hsearch, _⟩ | ⟨hlast, _⟩
      · simp [startedPass?, startsPass, hsearch] at hx
      · simp [startedPass?, startsPass, hlast] at hx
  | files change => cases change <;> cases hx
  | idle kind => rcases kind with rfl | ⟨_, rfl⟩ <;> cases hx
  | _ => cases hx

theorem event_project (h : Event ix a ix') (hnone : ix'.project = none) : ix.project = none := by
  cases h with
  | ask asks waits =>
      rw [(waits_settings waits).2.2.1] at hnone
      cases hnone
  | stop waits =>
      rw [(waits_settings waits).2.2.1] at hnone
      exact hnone
  | turn h =>
      rw [(waits_settings (.inr h)).2.2.1] at hnone
      exact hnone
  | configure quiet =>
      rcases quiet with ⟨_, rfl⟩ | ⟨_, rfl⟩
      · exact hnone
      · exact Option.map_eq_none_iff.1 hnone
  | _ => exact hnone

/-- An action that starts no pass only takes from those that wait. -/
theorem event_assigned_of_none (h : Event ix a ix') (hnone : ix.startedPass? a = none)
    (hix : Assigned passes ix) : Assigned passes ix' := by
  have hproject := event_project h
  have hover : ∀ {r outcome}, Assigned passes (ix.endPass r outcome) := fun {r outcome} =>
    hix.of_subset rfl (Nat.le_refl _) (by rintro r' ⟨⟩) (List.Subset.refl _) id
  cases h with
  | ask asks _ => simp [startedPass?, asks.startsPass] at hnone
  | stop waits => exact waits_assigned waits (assigned_stopping hix)
  | turn h => exact waits_assigned (.inr h) hix
  | refuse _ _ | configure _ =>
      exact hix.of_subset rfl (Nat.le_succ _) hix.running (List.Subset.refl _) hproject
  | walk running _ _ _ | publish running _ _ _ _ | work running _ _ _ =>
      have hmem := hix.running _ running
      refine hix.of_subset rfl (Nat.le_refl _) ?_ (List.Subset.refl _) hproject
      rintro r ⟨⟩
      exact hmem
  | abandon _ _ _ _ => exact hover
  | fail _ _ _ => exact hover
  | unchanged _ _ _ _ _ => exact hover
  | join _ _ => exact hover
  | _ => exact hix.of_subset rfl (Nat.le_refl _) hix.running (List.Subset.refl _) hproject

theorem event_assigned (h : Event ix a ix') (hsound : ix.Accounted) (hix : Assigned passes ix) :
    Assigned (passes ++ (ix.startedPass? a).toList) ix' := by
  cases hstarted : ix.startedPass? a with
  | none => simpa using event_assigned_of_none h hstarted hix
  | some x =>
      obtain ⟨rfl, config, project, request, waits⟩ := event_startedPass? h hstarted
      exact waits_assigned waits (assigned_asked hsound hix config project request)

theorem Assigned.idle (hix : Assigned passes ix) (hnone : ix.project = none) :
    ix.running = none := by
  refine Option.eq_none_iff_forall_ne_some.2 fun r hr => ?_
  simpa [hix.established hnone] using hix.running r hr

theorem idle_of_over (hsound : ix.Accounted) (hix : ix.ledger.Attended)
    (hover : ∀ k < ix.callCount, ∃ o, (k, o) ∈ ix.outcomes) :
    ix.active = none ∧ ix.running = none ∧ ix.queue = [] := by
  have hpending : ix.pendingCalls = [] := by
    refine List.eq_nil_iff_forall_not_mem.2 fun k hk => ?_
    obtain ⟨o, ho⟩ := hover k (hsound.lt_callCount hk)
    exact hsound.not_mem_outcomes hk o ho
  obtain ⟨hexecuted, hwaiting⟩ := List.append_eq_nil_iff.1 hpending
  have hrunning : ix.running = none := by simpa using hexecuted
  have hqueue : ix.queue = [] := by simpa using hwaiting
  refine ⟨Option.eq_none_iff_forall_ne_some.2 fun id hactive => ?_, hrunning, hqueue⟩
  simpa [ledger, hrunning, hqueue] using hix.alive id hactive

theorem Assigned.of_active (hix : Assigned passes ix) (hattended : ix.ledger.Attended) {id : Nat}
    (hactive : ix.active = some id) : ∃ k, (k, id) ∈ passes ∧ k ∈ ix.pendingCalls := by
  have hexecuted : ∀ r, ix.running = some r → r.plan.pass = id →
      ∃ k, (k, id) ∈ passes ∧ k ∈ ix.pendingCalls := by
    rintro r hr rfl
    exact ⟨r.call, hix.running r hr, by simp [pendingCalls, hr]⟩
  rcases hattended.alive id hactive with hmem | hjoining
  · rcases List.mem_append.1 hmem with hwalking | hqueue
    · obtain ⟨r, hr, hpass⟩ := Option.bind_eq_some_iff.1 (Option.mem_toList.1 hwalking)
      refine hexecuted r hr ?_
      unfold Running.walking? at hpass
      split at hpass <;> simp_all
    · obtain ⟨job, hjob, hpass⟩ := List.mem_filterMap.1 hqueue
      cases job with
      | pass call id' project request =>
          cases hpass
          refine ⟨call, hix.waiting _ _ _ _ hjob, List.mem_append_right _ ?_⟩
          exact List.mem_map.2 ⟨_, hjob, rfl⟩
      | stop call => cases hpass
  · obtain ⟨r, hr, hpass⟩ := Option.bind_eq_some_iff.1 hjoining
    refine hexecuted r hr ?_
    unfold Running.joining? at hpass
    split at hpass <;> simp_all

end Assigned

/-- What is known of every state that a run reaches. -/
structure Kept (passes : List (Nat × Nat)) (ix : Indexer) : Prop where
  sound : ix.Sound
  attended : ix.ledger.Attended
  assigned : Assigned passes ix

theorem kept_run (config : Config) (files : Memory) (actions : List Action) :
    Kept ((new config files).passes actions) ((new config files).run actions) := by
  induction actions using List.reverseRecOn with
  | nil =>
      refine ⟨sound_new config files, ⟨?_, ?_⟩, ?_⟩
      · rintro id ⟨⟩
      · rintro id _ ⟨⟩
      · constructor <;> simp [passes, run_nil, new]
  | append_singleton before a ih =>
      have hevent := act_event ((new config files).run before) a
      rw [passes_append, run_append]
      simp only [passes, run_cons, run_nil, List.append_nil]
      exact ⟨event_sound hevent ih.sound, event_attended hevent ih.sound.ordered ih.attended,
        event_assigned hevent ih.sound.accounted ih.assigned⟩

/-- The state in which an outcome of a pass leaves the indexer. -/
inductive Leaves : Outcome → PassState → Prop
  | completed (summary : Summary) : Leaves (.completed summary) .completed
  | cancelled : Leaves .cancelled .cancelled
  | failed (e : PassError) : Leaves (.failed e) .failed

/-- How an action bears on the state of the indexer. -/
inductive Shift (ix ix' : Indexer) : Prop
  | stays (state : ix'.state = ix.state)
      (executed : ix'.running.map Running.call = ix.running.map Running.call)
      (accepted : ∀ k, (k, .failed .noProject) ∈ ix'.outcomes →
        (k, .failed .noProject) ∈ ix.outcomes)
  | starts {r} (free : ix.running = none) (executed : ix'.running = some r)
      (state : ix'.state = .running)
  | ends {r o} (executed : ix.running = some r) (free : ix'.running = none)
      (reported : (r.call, o) ∈ ix'.outcomes) (state : Leaves o ix'.state)
  | refused (missing : ix.project = none) (same : ix'.running = ix.running)
      (reported : (ix.callCount, .failed .noProject) ∈ ix'.outcomes) (state : ix'.state = .failed)

theorem waits_shift {ix ix₁ ix' : Indexer} (h : Waits ix₁ ix') (hstate : ix₁.state = ix.state)
    (hrunning : ix₁.running = ix.running) (houtcomes : ix₁.outcomes = ix.outcomes) :
    Shift ix ix' := by
  rcases h with rfl | h
  · exact .stays hstate (by rw [hrunning]) (by simp [houtcomes])
  · cases h with
    | release free _ =>
        exact .stays hstate (by simp [report, hrunning]) (by simp [report, houtcomes])
    | dismiss free _ _ =>
        exact .stays hstate (by simp [report, hrunning]) (by simp [report, houtcomes])
    | start free _ _ => exact .starts (hrunning ▸ free) rfl rfl

theorem event_shift {ix ix' : Indexer} {a : Action} (h : Event ix a ix') : Shift ix ix' := by
  cases h with
  | ask asks waits => exact waits_shift waits rfl rfl rfl
  | stop waits => exact waits_shift waits rfl rfl rfl
  | turn h => exact waits_shift (.inr h) rfl rfl rfl
  | refuse none _ => exact .refused none rfl (by simp [report]) rfl
  | configure _ => exact .stays rfl rfl (by simp [report])
  | walk running _ _ _ | publish running _ _ _ _ | work running _ _ _ =>
      exact .stays rfl (by simp [publish_eq, running]) fun _ hk => hk
  | abandon running _ _ _ => exact .ends running rfl (mem_endPass _ _ _) .cancelled
  | fail running _ _ => exact .ends running rfl (mem_endPass _ _ _) (.failed _)
  | unchanged running _ _ _ _ => exact .ends running rfl (mem_endPass _ _ _) (.completed _)
  | join running _ => exact .ends running rfl (mem_endPass _ _ _) (.completed _)
  | _ => exact .stays rfl rfl fun _ hk => hk

end Indexer

end AsmIndex

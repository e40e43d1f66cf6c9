import AsmIndex.Proofs.CallAccounts
import Mathlib.Data.List.Induction

/-!
The last request wins. A pass that is superseded or stopped never publishes afterwards, and a pass
that is neither ends with its own index published.
-/

namespace AsmIndex.Indexer

/-- An action replaces the published index or tells subscribers of one. The index that is published
then is that of the pass `i`. -/
def Publishes (ix : Indexer) (a : Action) (i : Nat) : Prop :=
  ((ix.act a).snapshot ≠ ix.snapshot ∨ (ix.act a).notices ≠ ix.notices) ∧
    (ix.act a).snapshot.pass = i

theorem isCancelled_eq_false_iff {ix : Indexer} {id : Nat} :
    ix.isCancelled id = false ↔ id ∉ ix.ledger.cancelled := by
  simp [isCancelled, ledger]

/-- Passes are counted up, and a pass becomes active only when it is asked for. -/
theorem event_passCount {ix ix' : Indexer} {a : Action} (h : Event ix a ix') :
    ix'.passCount = ix.passCount + 1 ∨
      ix'.passCount = ix.passCount ∧ (ix.active = none → ix'.active = none) := by
  cases h with
  | ask asks waits =>
      obtain ⟨_, _, hcount, _⟩ := waits_frame waits
      exact .inl hcount
  | stop waits =>
      obtain ⟨_, _, hcount, hactive, _⟩ := waits_frame waits
      exact .inr ⟨hcount, fun _ => hactive⟩
  | turn h =>
      obtain ⟨_, _, hcount, hactive, _⟩ := waits_frame (.inr h)
      exact .inr ⟨hcount, fun hnone => hactive.trans hnone⟩
  | abandon _ _ _ _ => exact .inr ⟨rfl, fun hnone => by simp [endPass, report, hnone]⟩
  | fail _ _ _ => exact .inr ⟨rfl, fun hnone => by simp [endPass, report, hnone]⟩
  | unchanged _ _ _ _ _ => exact .inr ⟨rfl, fun hnone => by simp [endPass, report, hnone]⟩
  | join _ _ => exact .inr ⟨rfl, fun hnone => by simp [endPass, report, hnone]⟩
  | _ => exact .inr ⟨rfl, id⟩

theorem passCount_le_run (ix : Indexer) (actions : List Action) :
    ix.passCount ≤ (ix.run actions).passCount := by
  refine run_preserves (P := fun ix' => ix.passCount ≤ ix'.passCount) ?_ (Nat.le_refl _) actions
  intro ix₁ ix₂ a h hle
  rcases event_passCount h with hcount | ⟨hcount, _⟩ <;> omega

/-- The pass that publishes is the one that runs and that was asked for last, and it is later than
all that published before. -/
theorem Publishes.latest {ix : Indexer} {a : Action} {i : Nat} (hix : ix.Sound)
    (h : ix.Publishes a i) :
    (∃ r, ix.running = some r ∧ r.plan.pass = i) ∧ i = ix.passCount ∧ ix.active = some i ∧
      ix.snapshot.pass < i := by
  obtain ⟨hchange, hpass⟩ := h
  rcases event_silent_or_publish (act_event ix a) with ⟨hsnapshot, hnotices⟩ | hpublish
  · rcases hchange with hne | hne
    · exact absurd hsnapshot hne
    · exact absurd hnotices hne
  · obtain ⟨r, w, running, phase, _, valid, _, hact⟩ := hpublish
    obtain rfl : r.plan.pass = i := by rw [← hpass, hact, publish_eq]
    have hmem : r.plan.pass ∈ ix.ledger.pending := by simp [pending_of_walking running phase]
    have hvalid := isCancelled_eq_false_iff.1 valid
    refine ⟨⟨r, running, rfl⟩, hix.ordered.eq_asked hmem hvalid, ?_,
      hix.ordered.after _ hmem⟩
    exact (hix.ordered.current _ hmem).resolve_left hvalid

theorem snapshot_pass_le_run {ix : Indexer} (hix : ix.Sound) (actions : List Action) :
    ix.snapshot.pass ≤ (ix.run actions).snapshot.pass := by
  have hstart : ix.Sound ∧ ix.snapshot.pass ≤ ix.snapshot.pass := ⟨hix, Nat.le_refl _⟩
  have hrun := run_preserves (P := fun ix' => ix'.Sound ∧ ix.snapshot.pass ≤ ix'.snapshot.pass)
    ?_ hstart actions
  · exact hrun.2
  · rintro ix₁ ix₂ a h ⟨hsound, hle⟩
    refine ⟨event_sound h hsound, ?_⟩
    rcases event_silent_or_publish h with
      ⟨hsnapshot, _⟩ | ⟨r, w, running, phase, _, _, _, rfl⟩
    · rwa [hsnapshot]
    · have hlt := hsound.ordered.after r.plan.pass (by simp [pending_of_walking running phase])
      exact Nat.le_trans hle (Nat.le_of_lt hlt)

/-- As long as no pass has been asked for since a call to stop, none is active. -/
theorem active_none_of_stop (ix : Indexer) (after : List Action)
    (h : ((ix.act (.call .stop)).run after).passCount = ix.passCount) :
    ((ix.act (.call .stop)).run after).active = none := by
  have hstop : (ix.act (.call .stop)).passCount = ix.passCount ∧
      (ix.act (.call .stop)).active = none := by
    obtain ⟨_, _, hcount, hactive, _⟩ := waits_frame ix.stop_waits
    exact ⟨hcount, hactive⟩
  have hrun := run_preserves
    (P := fun ix' => ix.passCount ≤ ix'.passCount ∧
      (ix'.passCount = ix.passCount → ix'.active = none))
    ?_ ⟨Nat.le_of_eq hstop.1.symm, fun _ => hstop.2⟩ after
  · exact hrun.2 h
  · rintro ix₁ ix₂ a hevent ⟨hle, hnone⟩
    rcases event_passCount hevent with hcount | ⟨hcount, hactive⟩
    · exact ⟨by omega, fun heq => by omega⟩
    · exact ⟨by omega, fun heq => hactive (hnone (by omega))⟩

/-- A pass that publishes after a call to stop was asked for after it. -/
theorem Publishes.after_stop {ix : Indexer} (hix : ix.Sound) {after : List Action} {a : Action}
    {i : Nat} (h : ((ix.act (.call .stop)).run after).Publishes a i) : ix.passCount < i := by
  have hstopped := event_sound (act_event ix (.call .stop)) hix
  obtain ⟨_, hlatest, hactive, _⟩ := h.latest (run_sound hstopped after)
  have hle := passCount_le_run (ix.act (.call .stop)) after
  obtain ⟨_, _, hcount, _⟩ := waits_frame ix.stop_waits
  have hne : ((ix.act (.call .stop)).run after).passCount ≠ ix.passCount := by
    intro heq
    rw [active_none_of_stop ix after heq] at hactive
    cases hactive
  simp only [stopping] at hcount
  omega

theorem waits_outcomes {ix ix' : Indexer} (h : Waits ix ix') {x : Nat × Outcome}
    (hx : x ∈ ix.outcomes) : x ∈ ix'.outcomes := by
  rcases h with rfl | h
  · exact hx
  · cases h with
    | release _ _ => exact List.mem_append_left _ hx
    | dismiss _ _ _ => exact List.mem_append_left _ hx
    | start _ _ _ => exact hx

/-- What a call came to stays on record. -/
theorem event_outcomes {ix ix' : Indexer} {a : Action} (h : Event ix a ix') {x : Nat × Outcome}
    (hx : x ∈ ix.outcomes) : x ∈ ix'.outcomes := by
  cases h with
  | ask asks waits => exact waits_outcomes waits hx
  | stop waits => exact waits_outcomes waits hx
  | turn h => exact waits_outcomes (.inr h) hx
  | refuse _ _ => exact List.mem_append_left _ hx
  | configure _ => exact List.mem_append_left _ hx
  | abandon _ _ _ _ => exact List.mem_append_left _ hx
  | fail _ _ _ => exact List.mem_append_left _ hx
  | unchanged _ _ _ _ _ => exact List.mem_append_left _ hx
  | join _ _ => exact List.mem_append_left _ hx
  | _ => exact hx

theorem waits_pending {ix ix' : Indexer} (h : Waits ix ix') {id : Nat}
    (hid : id ∈ ix'.ledger.pending) : id ∈ ix.ledger.pending := by
  rcases h with rfl | h
  · exact hid
  · cases h with
    | release free next => simpa [ledger, report, free, next, Job.pass?] using hid
    | @dismiss _ _ _ _ rest free next _ =>
        have hmem : id ∈ rest.filterMap Job.pass? := by simpa [ledger, report, free] using hid
        simp only [ledger, free, next, Option.bind_none, Option.toList_none, List.nil_append,
          List.filterMap_cons, Job.pass?]
        exact List.mem_cons_of_mem _ hmem
    | start free next _ =>
        simpa [ledger, free, next, begun, planOf, Running.walking?, Job.pass?] using hid

/-- A pass comes to those that have not published only by being asked for. -/
theorem event_pending {ix ix' : Indexer} {a : Action} (h : Event ix a ix')
    (hcount : ix'.passCount = ix.passCount) {id : Nat} (hid : id ∈ ix'.ledger.pending) :
    id ∈ ix.ledger.pending := by
  cases h with
  | ask asks waits =>
      obtain ⟨_, _, hcount', _⟩ := waits_frame waits
      simp only [asked] at hcount'
      omega
  | stop waits => simpa [ledger, stopping, Job.pass?] using waits_pending waits hid
  | turn h => exact waits_pending (.inr h) hid
  | walk running phase | work running phase =>
      simpa [ledger, running, phase, Running.walking?] using hid
  | abandon running phase | fail running phase | unchanged running phase =>
      rw [pending_of_walking running phase]
      exact List.mem_cons_of_mem _ hid
  | publish running phase _ _ _ =>
      rw [pending_of_walking running phase]
      rw [ledger_publish] at hid
      exact List.mem_cons_of_mem _ hid
  | join running phase =>
      rw [pending_of_joining running phase]
      exact hid
  | _ => exact hid

/-- A walk whose index does not differ from the previous one has computed what is published. -/
theorem Sound.shown_of_unchanged {ix : Indexer} (hix : ix.Sound) {r : Running} {w : Walk}
    (running : ix.running = some r) (phase : r.phase = .walking w)
    (same : (Changes.between r.plan.previous w.index).isEmpty = true) (p : Path) (s : Symbols) :
    ix.snapshot.index.get? p s = w.index.get? p s := by
  have hprevious := hix.grounded.previous running phase
  rw [← hprevious]
  refine (hix.grounded.inherits running phase).get?_eq ?_ same p s
  intro p' s' v hv
  rw [hprevious] at hv
  have hlt := hix.ordered.after r.plan.pass (by simp [pending_of_walking running phase])
  exact Nat.lt_of_le_of_lt (hix.grounded.ids hv) hlt

/-- How far the call `k` has come, whose pass has the number `j` and is neither superseded nor
stopped. `Computed` holds of the index that the pass computed. -/
inductive Course (k j : Nat) (Computed : Index → Prop) (ix : Indexer) : Prop
  | waiting {project request} (queued : .pass k j project request ∈ ix.queue)
      (valid : j ∉ ix.cancelled)
  | walking {r w} (running : ix.running = some r) (phase : r.phase = .walking w)
      (call : r.call = k) (pass : r.plan.pass = j) (valid : j ∉ ix.cancelled)
      (going : w.ending? ≠ some .cancelled)
  | joining {r summary tasks index} (running : ix.running = some r)
      (phase : r.phase = .joining summary tasks) (call : r.call = k) (pass : r.plan.pass = j)
      (computed : Computed index) (shown : ∀ p s, ix.snapshot.index.get? p s = index.get? p s)
  | failed {e} (reported : (k, .failed e) ∈ ix.outcomes)
  | completed {summary index} (reported : (k, .completed summary) ∈ ix.outcomes)
      (last : j ∉ ix.ledger.pending) (computed : Computed index)
      (shown : ∀ p s, ix.snapshot.index.get? p s = index.get? p s)

section Course

variable {k j : Nat} {Computed Computed' : Index → Prop} {ix ix' : Indexer} {a : Action}

theorem not_mem_revoke (hix : ix.Sound) {pass : Nat} (hmem : j ∈ ix.ledger.pending)
    (told : ∃ n ∈ ix.notices, n.2.snapshot.pass = pass) (valid : j ∉ ix.cancelled) :
    j ∉ pass :: ix.cancelled := by
  obtain ⟨n, hn, rfl⟩ := told
  have hle := hix.ordered.told _ (List.mem_map.2 ⟨n, hn, rfl⟩)
  have hlt := hix.ordered.after j hmem
  simp only [List.mem_cons, not_or]
  exact ⟨by omega, valid⟩

theorem course_waiting (h : Event ix a ix') (hix : ix.Sound) (hj : ix.passCount = j)
    (hj' : ix'.passCount = j) (hstop : a ≠ .call .stop) {project : Project} {request : Request}
    (queued : .pass k j project request ∈ ix.queue) (valid : j ∉ ix.cancelled) :
    Course k j Computed ix' := by
  have hqueue : j ∈ ix.queue.filterMap Job.pass? := List.mem_filterMap.2 ⟨_, queued, rfl⟩
  have hmem : j ∈ ix.ledger.pending := List.mem_append_right _ hqueue
  cases h with
  | ask asks waits =>
      obtain ⟨_, _, hcount, _⟩ := waits_frame waits
      simp only [asked] at hcount
      omega
  | stop waits => exact absurd rfl hstop
  | turn h =>
      cases h with
      | release free next =>
          rw [next, List.mem_cons] at queued
          exact .waiting (queued.resolve_left (by simp)) valid
      | dismiss free next cancelled =>
          rw [next, List.mem_cons] at queued
          rcases queued with heq | hrest
          · cases heq
            simp [isCancelled_eq_false_iff.2 valid] at cancelled
          · exact .waiting hrest valid
      | start free next _ =>
          rw [next, List.mem_cons] at queued
          rcases queued with heq | hrest
          · cases heq
            exact .walking rfl rfl rfl rfl valid (by simp [Walk.start, Walk.ending?])
          · exact .waiting hrest valid
  | revoke told => exact .waiting queued (not_mem_revoke hix hmem told valid)
  | @publish r w running phase _ uncancelled _ =>
      -- The publishing pass would be the last one, but that one still waits behind it.
      have hpending := pending_of_walking running phase
      have hhead : r.plan.pass ∈ ix.ledger.pending := by simp [hpending]
      have heq := hix.ordered.eq_asked hhead (isCancelled_eq_false_iff.1 uncancelled)
      have hlt := (List.pairwise_cons.1 (hpending ▸ hix.ordered.sorted)).1 j hqueue
      have hasked : ix.ledger.asked = j := hj
      omega
  | _ => exact .waiting queued valid

theorem course_walking (h : Event ix a ix') (hix : ix.Sound) (hj : ix.passCount = j)
    (hj' : ix'.passCount = j) (hstop : a ≠ .call .stop) {r : Running} {w : Walk}
    (running : ix.running = some r) (phase : r.phase = .walking w) (hcall : r.call = k)
    (pass : r.plan.pass = j) (valid : j ∉ ix.cancelled) (going : w.ending? ≠ some .cancelled)
    (hnow : w.ending? = some .complete → Computed' w.index) : Course k j Computed' ix' := by
  have hpending := pending_of_walking running phase
  have hsorted := (List.pairwise_cons.1 (hpending ▸ hix.ordered.sorted)).1
  have huncancelled : ix.isCancelled r.plan.pass = false := by
    rw [pass]
    exact isCancelled_eq_false_iff.2 valid
  -- All that concerns the running pass is about `r` and `w`.
  have hsame : ∀ {r' w'}, ix.running = some r' → r'.phase = .walking w' → r' = r ∧
      w' = w := by
    intro r' w' hr hw
    obtain rfl := Option.some.inj (running.symm.trans hr)
    cases phase.symm.trans hw
    exact ⟨rfl, rfl⟩
  have hnot : ∀ {r' summary tasks}, ix.running = some r' →
      r'.phase ≠ .joining summary tasks := by
    intro r' summary tasks hr hw
    obtain rfl := Option.some.inj (running.symm.trans hr)
    cases phase.symm.trans hw
  cases h with
  | ask asks waits =>
      obtain ⟨_, _, hcount, _⟩ := waits_frame waits
      simp only [asked] at hcount
      omega
  | stop waits => exact absurd rfl hstop
  | turn h => cases h <;> simp_all
  | revoke told =>
      have hmem : j ∈ ix.ledger.pending := by simp [hpending, pass]
      exact .walking running phase hcall pass (not_mem_revoke hix hmem told valid) going
  | walk running' phase' _ _ =>
      obtain ⟨rfl, rfl⟩ := hsame running' phase'
      refine .walking rfl rfl hcall pass valid ?_
      rw [huncancelled]
      exact Walk.move_ending (Walk.step_move _ _ _ _) going
  | abandon running' phase' ended cause =>
      obtain ⟨rfl, rfl⟩ := hsame running' phase'
      rcases cause with rfl | ⟨_, hcancelled⟩
      · exact absurd ended going
      · simp [huncancelled] at hcancelled
  | fail running' phase' ended =>
      obtain ⟨rfl, rfl⟩ := hsame running' phase'
      exact .failed (by rw [← hcall]; exact List.mem_append_right _ (List.mem_singleton_self _))
  | @unchanged r' w' running' phase' ended _ same =>
      obtain ⟨rfl, rfl⟩ := hsame running' phase'
      refine .completed
        (by rw [← hcall]; exact List.mem_append_right _ (List.mem_singleton_self _))
        ?_ (hnow ended) (hix.shown_of_unchanged running phase same)
      intro hmem
      have hlt := hsorted j hmem
      omega
  | publish running' phase' ended _ _ =>
      obtain ⟨rfl, rfl⟩ := hsame running' phase'
      exact .joining rfl rfl hcall pass (hnow ended) fun _ _ => rfl
  | work running' phase' _ _ => exact absurd phase' (hnot running')
  | join running' phase' => exact absurd phase' (hnot running')
  | _ => exact .walking running phase hcall pass valid going

theorem course_joining (h : Event ix a ix') (hix : ix.Sound) (hj : ix.passCount = j)
    (hj' : ix'.passCount = j) (hstop : a ≠ .call .stop) {r : Running} {summary : Summary}
    {tasks : List Task} {index : Index} (running : ix.running = some r)
    (phase : r.phase = .joining summary tasks) (hcall : r.call = k) (pass : r.plan.pass = j)
    (computed : Computed' index) (shown : ∀ p s, ix.snapshot.index.get? p s = index.get? p s) :
    Course k j Computed' ix' := by
  have hnot : ∀ {r' w'}, ix.running = some r' → r'.phase ≠ .walking w' := by
    intro r' w' hr hw
    obtain rfl := Option.some.inj (running.symm.trans hr)
    cases phase.symm.trans hw
  cases h with
  | ask asks waits =>
      obtain ⟨_, _, hcount, _⟩ := waits_frame waits
      simp only [asked] at hcount
      omega
  | stop waits => exact absurd rfl hstop
  | turn h => cases h <;> simp_all
  | walk running' phase' _ _ => exact absurd phase' (hnot running')
  | abandon running' phase' _ _ => exact absurd phase' (hnot running')
  | fail running' phase' _ => exact absurd phase' (hnot running')
  | unchanged running' phase' _ _ _ => exact absurd phase' (hnot running')
  | publish running' phase' _ _ _ => exact absurd phase' (hnot running')
  | work running' phase' _ _ =>
      obtain rfl := Option.some.inj (running.symm.trans running')
      exact .joining rfl rfl hcall pass computed shown
  | join running' phase' =>
      obtain rfl := Option.some.inj (running.symm.trans running')
      refine .completed
        (by rw [← hcall]; exact List.mem_append_right _ (List.mem_singleton_self _))
        ?_ computed shown
      intro hmem
      have hjoin := hix.ordered.joining r.plan.pass
        (by simp [ledger, running, Running.joining?_eq phase])
      have hlt := hix.ordered.after j (pending_of_joining running phase ▸ hmem)
      omega
  | _ => exact .joining running phase hcall pass computed shown

theorem course_completed (h : Event ix a ix') (hix : ix.Sound) (hj : ix.passCount = j)
    (hj' : ix'.passCount = j) {summary : Summary} {index : Index}
    (reported : (k, .completed summary) ∈ ix.outcomes) (last : j ∉ ix.ledger.pending)
    (computed : Computed' index) (shown : ∀ p s, ix.snapshot.index.get? p s = index.get? p s) :
    Course k j Computed' ix' := by
  refine .completed (event_outcomes h reported) ?_ computed ?_
  · exact fun hmem => last (event_pending h (hj'.trans hj.symm) hmem)
  · rcases event_silent_or_publish h with
      ⟨hsnapshot, _⟩ | ⟨r, w, running, phase, _, valid, _, _⟩
    · rwa [hsnapshot]
    · have hmem : r.plan.pass ∈ ix.ledger.pending := by simp [pending_of_walking running phase]
      have heq : r.plan.pass = j :=
        (hix.ordered.eq_asked hmem (isCancelled_eq_false_iff.1 valid)).trans hj
      exact absurd (heq ▸ hmem) last

/-- What happens to the last pass, as long as no pass is asked for after it and no stop is
called. -/
theorem course_event (h : Event ix a ix') (hix : ix.Sound) (hj : ix.passCount = j)
    (hj' : ix'.passCount = j) (hstop : a ≠ .call .stop)
    (hnow : ∀ {r w}, ix.running = some r → r.call = k → r.phase = .walking w →
      w.ending? = some .complete → Computed' w.index)
    (hmono : ∀ index, Computed index → Computed' index) (hc : Course k j Computed ix) :
    Course k j Computed' ix' := by
  cases hc with
  | waiting queued valid => exact course_waiting h hix hj hj' hstop queued valid
  | walking running phase hcall pass valid going =>
      exact course_walking h hix hj hj' hstop running phase hcall pass valid going
        (hnow running hcall phase)
  | joining running phase hcall pass computed shown =>
      exact course_joining h hix hj hj' hstop running phase hcall pass (hmono _ computed) shown
  | failed reported => exact .failed (event_outcomes h reported)
  | completed reported last computed shown =>
      exact course_completed h hix hj hj' reported last (hmono _ computed) shown

theorem course_ask (hix : ix.Sound) {c : Call}
    (hcount : (ix.act (.call c)).passCount = ix.passCount + 1) :
    Course ix.callCount (ix.passCount + 1) Computed (ix.act (.call c)) := by
  have hevent := act_event ix (.call c)
  generalize ix.act (.call c) = ix' at hevent hcount
  cases hevent with
  | @ask _ config project request _ asks waits =>
      have hasked : (ix.asked config project request).Sound :=
        event_sound (.ask asks (.inl rfl)) hix
      have hqueued : .pass ix.callCount (ix.passCount + 1) project request ∈
          (ix.asked config project request).queue :=
        List.mem_append_right _ (List.mem_singleton_self _)
      have hvalid := not_cancelled_asked hix.ordered config project request
      rcases waits with rfl | hturn
      · exact .waiting hqueued hvalid
      · exact course_waiting (.turn hturn) hasked rfl hcount (by simp) hqueued hvalid
  | stop waits =>
      obtain ⟨_, _, hcount', _⟩ := waits_frame waits
      simp only [stopping] at hcount'
      omega
  | refuse _ _ => simp [report] at hcount
  | configure _ => simp [report] at hcount
  | files change => cases change
  | idle kind => simp at kind

/-- What the course of a call says of its outcome. -/
theorem Course.outcome (hc : Course k j Computed ix) (hix : ix.Accounted) :
    (k, .cancelled) ∉ ix.outcomes ∧
      ∀ summary, (k, .completed summary) ∈ ix.outcomes →
        ∃ index, Computed index ∧ ∀ p s, ix.snapshot.index.get? p s = index.get? p s := by
  cases hc with
  | waiting queued valid =>
      have hpending : k ∈ ix.pendingCalls :=
        List.mem_append_right _ (List.mem_map.2 ⟨_, queued, rfl⟩)
      exact ⟨hix.not_mem_outcomes hpending _,
        fun summary hover => absurd hover (hix.not_mem_outcomes hpending _)⟩
  | walking running _ hcall | joining running _ hcall =>
      have hpending : k ∈ ix.pendingCalls := by simp [pendingCalls, running, hcall]
      exact ⟨hix.not_mem_outcomes hpending _,
        fun summary hover => absurd hover (hix.not_mem_outcomes hpending _)⟩
  | failed reported =>
      refine ⟨fun hover => ?_, fun summary hover => ?_⟩
      · cases hix.outcome_unique reported hover
      · cases hix.outcome_unique reported hover
  | completed reported last computed shown =>
      refine ⟨fun hover => ?_, fun summary hover => ⟨_, computed, shown⟩⟩
      cases hix.outcome_unique reported hover

end Course

/-- In the run `after` of `ix`, the pass of the call `k` comes to the end of its walk with
`index`. -/
def Computes (ix : Indexer) (after : List Action) (k : Nat) (index : Index) : Prop :=
  ∃ mid rest r w, after = mid ++ rest ∧ (ix.run mid).running = some r ∧ r.call = k ∧
    r.phase = .walking w ∧ w.ending? = some .complete ∧ w.index = index

theorem course_run {ix : Indexer} {k j : Nat} (hix : ix.Sound)
    (hstart : Course k j (ix.Computes [] k) ix) (hj : ix.passCount = j) (after : List Action)
    (hlast : (ix.run after).passCount = j) (hstop : .call .stop ∉ after) :
    Course k j (ix.Computes after k) (ix.run after) := by
  induction after using List.reverseRecOn with
  | nil => exact hstart
  | append_singleton before a ih =>
      rw [run_append] at hlast ⊢
      have hle := passCount_le_run ix before
      have hle' := passCount_le_run (ix.run before) [a]
      have hbefore : (ix.run before).passCount = j := by omega
      have hcourse := ih hbefore (fun hmem => hstop (List.mem_append_left _ hmem))
      refine course_event (act_event (ix.run before) a) (run_sound hix before) hbefore hlast
        ?_ ?_ ?_ hcourse
      · rintro rfl
        exact hstop (List.mem_append_right _ (List.mem_singleton_self _))
      · intro r w running hcall phase ended
        exact ⟨before, [a], r, w, rfl, running, hcall, phase, ended, rfl⟩
      · rintro index ⟨mid, rest, r, w, rfl, running, hcall, phase, ended, hindex⟩
        exact ⟨mid, rest ++ [a], r, w, by simp, running, hcall, phase, ended, hindex⟩

/-- The last request wins. A pass that publishes after `before` is the one whose turn it is; it is
not older than any pass asked for by then, and after a stop it is newer than all of them, so the
numbers of publishing passes increase. A pass that is not superseded and not stopped never comes
to be cancelled, and once it is completed the published index holds the variants of the index it
computed. -/
theorem last_request_wins (config : Config) (files : Memory) (before after : List Action) :
    let ix := (new config files).run before
    (∀ a i, ix.Publishes a i → ∃ r, ix.running = some r ∧ r.plan.pass = i) ∧
      (∀ a i, (ix.run after).Publishes a i → ix.passCount ≤ i) ∧
      (∀ a i, ((ix.act (.call .stop)).run after).Publishes a i → ix.passCount < i) ∧
      (∀ a i a' i', ix.Publishes a i → ((ix.act a).run after).Publishes a' i' → i < i') ∧
      ∀ c, (ix.act (.call c)).passCount = ix.passCount + 1 →
        ((ix.act (.call c)).run after).passCount = ix.passCount + 1 → .call .stop ∉ after →
        (ix.callCount, .cancelled) ∉ ((ix.act (.call c)).run after).outcomes ∧
        ∀ summary,
        (ix.callCount, .completed summary) ∈ ((ix.act (.call c)).run after).outcomes →
          ∃ index, (ix.act (.call c)).Computes after ix.callCount index ∧
            ∀ p s, ((ix.act (.call c)).run after).snapshot.index.get? p s = index.get? p s := by
  intro ix
  have hsound : ix.Sound := run_sound (sound_new config files) before
  refine ⟨?_, ?_, ?_, ?_, ?_⟩
  · intro a i hpublishes
    exact (hpublishes.latest hsound).1
  · intro a i hpublishes
    obtain ⟨_, hlatest, _⟩ := hpublishes.latest (run_sound hsound after)
    have hle := passCount_le_run ix after
    omega
  · intro a i hpublishes
    exact hpublishes.after_stop hsound
  · intro a i a' i' hfirst hsecond
    have hnext := event_sound (act_event ix a) hsound
    obtain ⟨_, _, _, hlt⟩ := hsecond.latest (run_sound hnext after)
    have hle := snapshot_pass_le_run hnext after
    have hpass := hfirst.2
    omega
  · intro c hasks hlast hstop
    have hnext := event_sound (act_event ix (.call c)) hsound
    have hcourse := course_run hnext (course_ask hsound hasks) hasks after hlast hstop
    exact hcourse.outcome (run_sound hnext after).accounted

end AsmIndex.Indexer

import AsmIndex.Proofs.IndexerEvents

/-!
The order of passes. Of the passes that have not published, all but the one asked for last are
cancelled, and they stand in the order of their numbers; so a pass that publishes is the one asked
for last.
-/

namespace AsmIndex

/-- The number of a waiting pass. -/
def Job.pass? : Job → Option Nat
  | .pass _ id _ _ => some id
  | .stop _ => none

/-- The number of a pass that walks and has not published. -/
def Running.walking? (r : Running) : Option Nat :=
  match r.phase with
  | .walking _ => some r.plan.pass
  | .joining _ _ => none

/-- The number of a pass that has published and waits for attached tasks. -/
def Running.joining? (r : Running) : Option Nat :=
  match r.phase with
  | .walking _ => none
  | .joining _ _ => some r.plan.pass

theorem Running.walking?_eq {r : Running} {w : Walk} (h : r.phase = .walking w) :
    r.walking? = some r.plan.pass := by
  simp [walking?, h]

theorem Running.joining?_eq {r : Running} {summary : Summary} {tasks : List Task}
    (h : r.phase = .joining summary tasks) : r.joining? = some r.plan.pass := by
  simp [joining?, h]

theorem Running.walking?_eq_none {r : Running} {summary : Summary} {tasks : List Task}
    (h : r.phase = .joining summary tasks) : r.walking? = none := by
  simp [walking?, h]

/-- What an indexer knows of its passes: those that have not published, the walking one first; the
one that waits for attached tasks; how many were asked for; the last that published; the active
one; those cancelled; and those that subscribers were told of. -/
structure Ledger where
  pending : List Nat
  joining : Option Nat
  asked : Nat
  published : Nat
  active : Option Nat
  cancelled : List Nat
  told : List Nat

/-- The ledger of an indexer. -/
def Indexer.ledger (ix : Indexer) : Ledger where
  pending := (ix.running.bind Running.walking?).toList ++ ix.queue.filterMap Job.pass?
  joining := ix.running.bind Running.joining?
  asked := ix.passCount
  published := ix.snapshot.pass
  active := ix.active
  cancelled := ix.cancelled
  told := ix.notices.map fun n => n.2.snapshot.pass

namespace Ledger

/-- The order of passes. -/
structure Ordered (l : Ledger) : Prop where
  sorted : l.pending.Pairwise (· < ·)
  bounded : ∀ id ∈ l.pending, id ≤ l.asked
  after : ∀ id ∈ l.pending, l.published < id
  current : ∀ id ∈ l.pending, id ∈ l.cancelled ∨ l.active = some id
  latest : ∀ id, l.active = some id → id = l.asked
  published : l.published ≤ l.asked
  cancelled : ∀ id ∈ l.cancelled, id ≤ l.asked
  told : ∀ id ∈ l.told, id ≤ l.published
  joining : ∀ id, l.joining = some id → id = l.published

/-- Of the passes that have not published, one that is not cancelled is the one asked for last. -/
theorem Ordered.eq_asked {l : Ledger} (h : l.Ordered) {id : Nat} (hid : id ∈ l.pending)
    (hvalid : id ∉ l.cancelled) : id = l.asked := by
  rcases h.current id hid with hc | ha
  · exact absurd hc hvalid
  · exact h.latest id ha

theorem Ordered.ask {l : Ledger} (h : l.Ordered) :
    Ordered { l with
      pending := l.pending ++ [l.asked + 1]
      asked := l.asked + 1
      active := some (l.asked + 1)
      cancelled := l.active.toList ++ l.cancelled } where
  sorted := by
    refine List.pairwise_append.2 ⟨h.sorted, by simp, ?_⟩
    intro id hid id' hid'
    have hle := h.bounded id hid
    simp only [List.mem_singleton] at hid'
    omega
  bounded := by
    intro id hid
    rcases List.mem_append.1 hid with hid | hid
    · exact Nat.le_succ_of_le (h.bounded id hid)
    · simp_all
  after := by
    intro id hid
    rcases List.mem_append.1 hid with hid | hid
    · exact h.after id hid
    · have hle := h.published
      simp only [List.mem_singleton] at hid
      show l.published < id
      omega
  current := by
    intro id hid
    rcases List.mem_append.1 hid with hid | hid
    · rcases h.current id hid with hc | ha
      · exact .inl (List.mem_append_right _ hc)
      · exact .inl (by simp [ha])
    · exact .inr (by simp_all)
  latest := by simp
  published := Nat.le_succ_of_le h.published
  cancelled := by
    intro id hid
    rcases List.mem_append.1 hid with hid | hid
    · have hlatest := h.latest id (by simpa using hid)
      show id ≤ l.asked + 1
      omega
    · exact Nat.le_succ_of_le (h.cancelled id hid)
  told := h.told
  joining := h.joining

theorem Ordered.stop {l : Ledger} (h : l.Ordered) :
    Ordered { l with active := none, cancelled := l.active.toList ++ l.cancelled } where
  sorted := h.sorted
  bounded := h.bounded
  after := h.after
  current := by
    intro id hid
    rcases h.current id hid with hc | ha
    · exact .inl (List.mem_append_right _ hc)
    · exact .inl (by simp [ha])
  latest := by simp
  published := h.published
  cancelled := by
    intro id hid
    rcases List.mem_append.1 hid with hid | hid
    · exact Nat.le_of_eq (h.latest id (by simpa using hid))
    · exact h.cancelled id hid
  told := h.told
  joining := h.joining

theorem Ordered.revoke {l : Ledger} (h : l.Ordered) {id : Nat} (hid : id ≤ l.asked) :
    Ordered { l with cancelled := id :: l.cancelled } where
  sorted := h.sorted
  bounded := h.bounded
  after := h.after
  current := by
    intro id' hid'
    rcases h.current id' hid' with hc | ha
    · exact .inl (List.mem_cons_of_mem _ hc)
    · exact .inr ha
  latest := h.latest
  published := h.published
  cancelled := by
    intro id' hid'
    rcases List.mem_cons.1 hid' with rfl | hid'
    · exact hid
    · exact h.cancelled id' hid'
  told := h.told
  joining := h.joining

/-- A pass leaves the queue, or ends without publishing. -/
theorem Ordered.drop {l : Ledger} (h : l.Ordered) {id : Nat} {rest : List Nat}
    (hpending : l.pending = id :: rest) : Ordered { l with pending := rest } where
  sorted := (List.pairwise_cons.1 (hpending ▸ h.sorted)).2
  bounded := fun id' hid' => h.bounded id' (by simp [hpending, hid'])
  after := fun id' hid' => h.after id' (by simp [hpending, hid'])
  current := fun id' hid' => h.current id' (by simp [hpending, hid'])
  latest := h.latest
  published := h.published
  cancelled := h.cancelled
  told := h.told
  joining := h.joining

/-- The active pass ends, where it is not among those that have not published. -/
theorem Ordered.finish {l : Ledger} (h : l.Ordered) {id : Nat} (hid : id ∉ l.pending) :
    Ordered { l with
      joining := none
      active := if l.active == some id then none else l.active } where
  sorted := h.sorted
  bounded := h.bounded
  after := h.after
  current := by
    intro id' hid'
    rcases h.current id' hid' with hc | ha
    · exact .inl hc
    · refine .inr ?_
      have hne : id' ≠ id := by
        rintro rfl
        exact hid hid'
      simp [ha, hne]
  latest := by
    intro id' hid'
    by_cases hactive : l.active = some id
    · simp [hactive] at hid'
    · simp only [beq_iff_eq, hactive, if_false] at hid'
      exact h.latest id' hid'
  published := h.published
  cancelled := h.cancelled
  told := h.told
  joining := by simp

/-- The walking pass publishes; subscribers may cancel it. -/
theorem Ordered.publish {l : Ledger} (h : l.Ordered) {id : Nat} {rest told : List Nat}
    {cancelled : Bool} (hpending : l.pending = id :: rest) (htold : ∀ t ∈ told, t = id) :
    Ordered { l with
      pending := rest
      joining := some id
      published := id
      cancelled := if cancelled then id :: l.cancelled else l.cancelled
      told := l.told ++ told } := by
  have hlt : l.published < id := h.after id (by simp [hpending])
  have hle : id ≤ l.asked := h.bounded id (by simp [hpending])
  have hsorted := List.pairwise_cons.1 (hpending ▸ h.sorted)
  have hdrop : Ordered { l with
      pending := rest
      joining := some id
      published := id
      told := l.told ++ told } :=
    { h.drop hpending with
      after := hsorted.1
      published := hle
      told := by
        intro t ht
        rcases List.mem_append.1 ht with ht | ht
        · exact Nat.le_trans (h.told t ht) (Nat.le_of_lt hlt)
        · exact Nat.le_of_eq (htold t ht)
      joining := by simp }
  cases cancelled with
  | false => exact hdrop
  | true => exact hdrop.revoke hle

end Ledger

theorem tell_snapshot (notice : Notice) (subscribers : List Subscriber) :
    ∀ n ∈ (tell notice subscribers).notices, n.2.snapshot = notice.snapshot := by
  induction subscribers generalizing notice with
  | nil => simp [tell]
  | cons s rest ih =>
      intro n hn
      simp only [tell, List.mem_cons] at hn
      rcases hn with rfl | hn
      · rfl
      · have hrest := ih _ n hn
        exact hrest

namespace Indexer

theorem pending_of_walking {ix : Indexer} {r : Running} {w : Walk} (running : ix.running = some r)
    (phase : r.phase = .walking w) :
    ix.ledger.pending = r.plan.pass :: ix.queue.filterMap Job.pass? := by
  simp [ledger, running, Running.walking?_eq phase]

theorem pending_of_joining {ix : Indexer} {r : Running} {summary : Summary} {tasks : List Task}
    (running : ix.running = some r) (phase : r.phase = .joining summary tasks) :
    ix.ledger.pending = ix.queue.filterMap Job.pass? := by
  simp [ledger, running, Running.walking?_eq_none phase]

theorem ledger_publish (ix : Indexer) (r : Running) (w : Walk) :
    (ix.publish r w.index (r.summary w)).ledger =
      { ix.ledger with
        pending := ix.queue.filterMap Job.pass?
        joining := some r.plan.pass
        published := r.plan.pass
        cancelled := if (ix.announced r w).cancelled then r.plan.pass :: ix.ledger.cancelled
          else ix.ledger.cancelled
        told := ix.ledger.told ++ (ix.announced r w).notices.map fun n => n.2.snapshot.pass } := by
  simp [ledger, publish_eq, Running.walking?, Running.joining?]

theorem turn_ordered {ix ix' : Indexer} (h : Turn ix ix') (hix : ix.ledger.Ordered) :
    ix'.ledger.Ordered := by
  cases h with
  | release free next =>
      convert hix using 1
      simp [ledger, report, next, List.filterMap_cons, Job.pass?]
  | @dismiss call id project request rest free next _ =>
      have hpending : ix.ledger.pending = id :: rest.filterMap Job.pass? := by
        simp [ledger, free, next, Job.pass?]
      convert hix.drop hpending using 1
      simp [ledger, report, free]
  | start free next _ =>
      convert hix using 1
      simp [ledger, free, next, begun, planOf, Running.walking?, Running.joining?, Job.pass?]

theorem endPass_ordered {ix : Indexer} {r : Running} {w : Walk} {outcome : Outcome}
    (running : ix.running = some r) (phase : r.phase = .walking w) (hix : ix.ledger.Ordered) :
    (ix.endPass r outcome).ledger.Ordered := by
  have hpending := pending_of_walking running phase
  have hsorted := (List.pairwise_cons.1 (hpending ▸ hix.sorted)).1
  refine (hix.drop hpending).finish ?_
  intro hmem
  exact Nat.lt_irrefl _ (hsorted _ hmem)

theorem event_ordered {ix ix' : Indexer} {a : Action} (h : Event ix a ix')
    (hix : ix.ledger.Ordered) : ix'.ledger.Ordered := by
  cases h with
  | ask asks waits =>
      refine waits.preserves turn_ordered ?_
      convert hix.ask using 1
      simp [ledger, asked, askedJob, Job.pass?]
  | stop waits =>
      refine waits.preserves turn_ordered ?_
      convert hix.stop using 1
      simp [ledger, stopping, Job.pass?]
  | revoke told =>
      obtain ⟨n, hn, rfl⟩ := told
      refine hix.revoke (Nat.le_trans (hix.told _ ?_) hix.published)
      exact List.mem_map.2 ⟨n, hn, rfl⟩
  | turn h => exact turn_ordered h hix
  | walk running phase | work running phase =>
      convert hix using 1
      simp [ledger, running, phase, Running.walking?, Running.joining?]
  | abandon running phase _ _ => exact endPass_ordered running phase hix
  | fail running phase _ => exact endPass_ordered running phase hix
  | unchanged running phase _ _ _ => exact endPass_ordered running phase hix
  | @publish r w running phase _ _ _ =>
      rw [ledger_publish]
      refine hix.publish (pending_of_walking running phase) ?_
      intro t ht
      obtain ⟨n, hn, rfl⟩ := List.mem_map.1 ht
      rw [tell_snapshot _ _ n hn]
  | @join r summary running phase =>
      have hjoin : r.plan.pass = ix.ledger.published :=
        hix.joining _ (by simp [ledger, running, Running.joining?_eq phase])
      have hleft : r.plan.pass ∉ ix.ledger.pending := by
        intro hmem
        have hlt := hix.after _ hmem
        omega
      convert hix.finish hleft using 1
      simp [ledger, endPass, report, running, Running.walking?_eq_none phase]
  | _ => exact hix

/-- Once the active pass is cancelled, no waiting pass is left that is not. -/
theorem cancelled_of_waiting {ix : Indexer} (hordered : ix.ledger.Ordered) {call id : Nat}
    {project : Project} {request : Request} (hmem : .pass call id project request ∈ ix.queue) :
    id ∈ ix.active.toList ++ ix.cancelled := by
  have hpending : id ∈ ix.ledger.pending :=
    List.mem_append_right _ (List.mem_filterMap.2 ⟨_, hmem, rfl⟩)
  rcases hordered.current id hpending with hcancelled | hactive
  · exact List.mem_append_right _ hcancelled
  · exact List.mem_append_left _ (Option.mem_toList.2 hactive)

/-- A pass is not cancelled when it is asked for. -/
theorem not_cancelled_asked {ix : Indexer} (hordered : ix.ledger.Ordered) (config : Config)
    (project : Project) (request : Request) :
    ix.passCount + 1 ∉ (ix.asked config project request).cancelled := by
  intro hmem
  rcases List.mem_append.1 hmem with hactive | hcancelled
  · have := hordered.latest _ (by simpa [ledger] using hactive)
    simp only [ledger] at this
    omega
  · have := hordered.cancelled _ hcancelled
    simp only [ledger] at this
    omega

theorem ordered_new (config : Config) (files : Memory) : (new config files).ledger.Ordered where
  sorted := by simp [ledger, new]
  bounded := by simp [ledger, new]
  after := by simp [ledger, new]
  current := by simp [ledger, new]
  latest := by simp [ledger, new]
  published := by simp [ledger, new]
  cancelled := by simp [ledger, new]
  told := by simp [ledger, new]
  joining := by simp [ledger, new]

end Indexer

end AsmIndex

import AsmIndex.Proofs.Differences
import AsmIndex.Proofs.PassOrder
import Mathlib.Data.List.Nodup

/-!
Accounts of calls and variants. Every call that was made is pending or has exactly one outcome. A
walk makes its variants new or takes them over from the index that the pass started from, under
the same path and symbols, and that index is the published one for as long as the pass walks.
-/

namespace AsmIndex

/-- The number of the call that waits. -/
def Job.call : Job → Nat
  | .pass call _ _ _ => call
  | .stop call => call

namespace Indexer

/-- The calls that are not over: the one whose turn it is, then those that wait. -/
def pendingCalls (ix : Indexer) : List Nat :=
  ix.running.toList.map Running.call ++ ix.queue.map Job.call

/-- The calls that are over and those that are not. -/
def calls (ix : Indexer) : List Nat := ix.outcomes.map Prod.fst ++ ix.pendingCalls

/-- Every call made so far stands once in the accounts. -/
def Accounted (ix : Indexer) : Prop := ix.calls.Perm (List.range ix.callCount)

theorem accounted_iff {ix : Indexer} :
    ix.Accounted ↔ ∀ k, ix.calls.count k = (List.range ix.callCount).count k :=
  List.perm_iff_count

theorem turn_accounted {ix ix' : Indexer} (h : Turn ix ix') (hix : ix.Accounted) :
    ix'.Accounted := by
  rw [accounted_iff] at hix ⊢
  intro k
  have hk := hix k
  cases h with
  | release free next | dismiss free next =>
      simp only [calls, pendingCalls, report, free, next, Option.toList_none, List.map_nil,
        List.nil_append, List.map_cons, Job.call, List.map_append, List.count_append,
        List.count_cons, List.count_nil] at hk ⊢
      omega
  | start free next _ =>
      simpa only [calls, pendingCalls, free, next, begun, Option.toList_none, Option.toList_some,
        List.map_nil, List.nil_append, List.map_cons, Job.call, List.cons_append] using hk

theorem endPass_accounted {ix : Indexer} {r : Running} (running : ix.running = some r)
    (outcome : Outcome) (hix : ix.Accounted) : (ix.endPass r outcome).Accounted := by
  rw [accounted_iff] at hix ⊢
  intro k
  have hk := hix k
  simp only [calls, pendingCalls, endPass, report, running, Option.toList_none,
    Option.toList_some, List.map_nil, List.nil_append, List.map_cons, List.cons_append,
    List.map_append, List.count_append, List.count_cons, List.count_nil] at hk ⊢
  omega

theorem event_accounted {ix ix' : Indexer} {a : Action} (h : Event ix a ix')
    (hix : ix.Accounted) : ix'.Accounted := by
  have hcounts := accounted_iff.1 hix
  cases h with
  | ask asks waits =>
      refine waits.preserves turn_accounted (accounted_iff.2 fun k => ?_)
      have hk := hcounts k
      simp only [calls, pendingCalls, asked, askedJob, List.map_append, List.map_cons,
        List.map_nil, Job.call, List.count_append, List.range_succ] at hk ⊢
      omega
  | stop waits =>
      refine waits.preserves turn_accounted (accounted_iff.2 fun k => ?_)
      have hk := hcounts k
      simp only [calls, pendingCalls, stopping, List.map_append, List.map_cons,
        List.map_nil, Job.call, List.count_append, List.range_succ] at hk ⊢
      omega
  | refuse none kind | configure quiet =>
      refine accounted_iff.2 fun k => ?_
      have hk := hcounts k
      simp only [calls, pendingCalls, report, List.map_append, List.map_cons, List.map_nil,
        List.count_append, List.range_succ] at hk ⊢
      omega
  | turn h => exact turn_accounted h hix
  | walk running phase | work running =>
      simpa [Accounted, calls, pendingCalls, running] using hix
  | abandon running _ _ _ => exact endPass_accounted running _ hix
  | fail running _ _ => exact endPass_accounted running _ hix
  | unchanged running _ _ _ _ => exact endPass_accounted running _ hix
  | publish running _ _ _ _ =>
      simpa [Accounted, calls, pendingCalls, publish_eq, running] using hix
  | join running _ => exact endPass_accounted running _ hix
  | _ => exact hix

theorem Accounted.nodup {ix : Indexer} (h : ix.Accounted) : ix.calls.Nodup :=
  h.nodup_iff.2 List.nodup_range

/-- A pending call has no outcome. -/
theorem Accounted.not_mem_outcomes {ix : Indexer} (h : ix.Accounted) {k : Nat}
    (hk : k ∈ ix.pendingCalls) (o : Outcome) : (k, o) ∉ ix.outcomes := by
  intro ho
  have hdisjoint := (List.nodup_append.1 h.nodup).2.2
  exact hdisjoint k (List.mem_map.2 ⟨(k, o), ho, rfl⟩) k hk rfl

/-- A call has at most one outcome. -/
theorem Accounted.outcome_unique {ix : Indexer} (h : ix.Accounted) {k : Nat} {o o' : Outcome}
    (ho : (k, o) ∈ ix.outcomes) (ho' : (k, o') ∈ ix.outcomes) : o = o' := by
  have hnodup := (List.nodup_append.1 h.nodup).1
  have heq := List.inj_on_of_nodup_map hnodup ho ho' rfl
  exact (Prod.mk.inj heq).2

end Indexer

namespace Walk

/-- The variants of the walk are new, or those of the previous index under the same path and
symbols. -/
def Inherits (plan : Plan) (w : Walk) : Prop :=
  ∀ p s v, w.index.get? p s = some v → v.id.pass = plan.pass ∨ plan.previous.get? p s = some v

theorem Inherits.insert {plan : Plan} {w : Walk} (h : w.Inherits plan) {p : Path} {s : Symbols}
    {v : Variant} (hv : v.id.pass = plan.pass ∨ plan.previous.get? p s = some v) :
    ∀ p' s' v', (w.index.insert p s v).get? p' s' = some v' →
      v'.id.pass = plan.pass ∨ plan.previous.get? p' s' = some v' := by
  refine Index.forall_insert ?_ h hv
  intro p q s v hp hv
  rwa [Index.get?_congr hp]

theorem move_inherits {plan : Plan} {view : FileView} {cancelled : Bool} {w w' : Walk}
    (h : Move plan view cancelled w w') (hw : w.Inherits plan) : w'.Inherits plan := by
  cases h with
  | reuseLive _ _ _ previous _ => exact hw.insert (.inr previous)
  | scanLive _ _ _ _ => exact hw.insert (.inl rfl)
  | reuseStored _ _ previous _ => exact hw.insert (.inr previous)
  | scanStored _ _ => exact hw.insert (.inl rfl)
  | replace _ _ _ => exact hw.insert (.inl rfl)
  | back _ _ => simpa only [Inherits, leave_index] using hw
  | _ => exact hw

/-- A walk whose index does not differ from the previous one has taken over all of it. -/
theorem Inherits.get?_eq {plan : Plan} {w : Walk} (h : w.Inherits plan)
    (hold : ∀ p s v, plan.previous.get? p s = some v → v.id.pass < plan.pass)
    (hsame : (Changes.between plan.previous w.index).isEmpty = true) (p : Path) (s : Symbols) :
    plan.previous.get? p s = w.index.get? p s := by
  have hid := Changes.id_eq_of_isEmpty hsame p s
  cases hw : w.index.get? p s with
  | none => simpa [hw] using hid.symm
  | some v =>
      rcases h p s v hw with hnew | hprevious
      · -- A new variant has the number of this pass, which nothing in the previous index has.
        rw [hw, Option.map_some] at hid
        obtain ⟨v', hv', heq⟩ := Option.map_eq_some_iff.1 hid.symm
        have hlt := hold p s v' hv'
        rw [heq, hnew] at hlt
        exact absurd hlt (Nat.lt_irrefl _)
      · exact hprevious

end Walk

namespace Indexer

/-- A walking pass started from the index that is still published, and the variants of that index
come from passes up to the one that published it. -/
structure Grounded (ix : Indexer) : Prop where
  previous : ∀ {r w}, ix.running = some r → r.phase = .walking w →
    r.plan.previous = ix.snapshot.index
  inherits : ∀ {r w}, ix.running = some r → r.phase = .walking w → w.Inherits r.plan
  ids : ∀ {p s v}, ix.snapshot.index.get? p s = some v → v.id.pass ≤ ix.snapshot.pass

theorem Grounded.of_idle {ix ix' : Indexer} (h : ix.Grounded) (hrunning : ix'.running = none)
    (hsnapshot : ix'.snapshot = ix.snapshot) : ix'.Grounded where
  previous := by simp [hrunning]
  inherits := by simp [hrunning]
  ids := by
    intro p s v hv
    rw [hsnapshot] at hv ⊢
    exact h.ids hv

theorem turn_grounded {ix ix' : Indexer} (h : Turn ix ix') (hix : ix.Grounded) :
    ix'.Grounded := by
  cases h with
  | release free _ => exact hix.of_idle free rfl
  | dismiss free _ _ => exact hix.of_idle free rfl
  | start free _ _ =>
      refine ⟨?_, ?_, hix.ids⟩
      · rintro r w hr hphase
        cases hr
        rfl
      · rintro r w hr hphase
        cases hr
        cases hphase
        intro p s v hv
        simp [Walk.start] at hv

theorem event_grounded {ix ix' : Indexer} {a : Action} (h : Event ix a ix')
    (hord : ix.ledger.Ordered) (hix : ix.Grounded) : ix'.Grounded := by
  cases h with
  | ask asks waits => exact waits.preserves turn_grounded ⟨hix.previous, hix.inherits, hix.ids⟩
  | stop waits => exact waits.preserves turn_grounded ⟨hix.previous, hix.inherits, hix.ids⟩
  | turn h => exact turn_grounded h hix
  | walk running phase _ _ =>
      have hprevious := hix.previous running phase
      have hinherits := hix.inherits running phase
      refine ⟨?_, ?_, hix.ids⟩
      · rintro r' w' hr hphase
        cases hr
        exact hprevious
      · rintro r' w' hr hphase
        cases hr
        cases hphase
        exact Walk.move_inherits (Walk.step_move _ _ _ _) hinherits
  | abandon _ _ _ _ => exact hix.of_idle rfl rfl
  | fail _ _ _ => exact hix.of_idle rfl rfl
  | unchanged _ _ _ _ _ => exact hix.of_idle rfl rfl
  | @publish r w running phase _ _ _ =>
      rw [publish_eq]
      refine ⟨?_, ?_, ?_⟩
      · rintro r' w' hr hphase
        cases hr
        cases hphase
      · rintro r' w' hr hphase
        cases hr
        cases hphase
      · intro p s v hv
        have hlt : ix.snapshot.pass < r.plan.pass :=
          hord.after _ (by simp [pending_of_walking running phase])
        rcases hix.inherits running phase p s v hv with hnew | hprevious
        · exact Nat.le_of_eq hnew
        · rw [hix.previous running phase] at hprevious
          exact Nat.le_trans (hix.ids hprevious) (Nat.le_of_lt hlt)
  | work running phase _ _ =>
      refine ⟨?_, ?_, hix.ids⟩
      · rintro r' w' hr hphase
        cases hr
        cases hphase
      · rintro r' w' hr hphase
        cases hr
        cases hphase
  | join _ _ => exact hix.of_idle rfl rfl
  | _ => exact ⟨hix.previous, hix.inherits, hix.ids⟩

/-- The state of an indexer is sound in what concerns passes, calls and variants. -/
structure Sound (ix : Indexer) : Prop where
  ordered : ix.ledger.Ordered
  accounted : ix.Accounted
  grounded : ix.Grounded

theorem event_sound {ix ix' : Indexer} {a : Action} (h : Event ix a ix') (hix : ix.Sound) :
    ix'.Sound :=
  ⟨event_ordered h hix.ordered, event_accounted h hix.accounted,
    event_grounded h hix.ordered hix.grounded⟩

theorem sound_new (config : Config) (files : Memory) : (new config files).Sound where
  ordered := ordered_new config files
  accounted := by simp [Accounted, calls, pendingCalls, new]
  grounded := by
    refine ⟨by simp [new], by simp [new], ?_⟩
    intro p s v hv
    simp [new] at hv

theorem run_sound {ix : Indexer} (h : ix.Sound) (actions : List Action) : (ix.run actions).Sound :=
  run_preserves event_sound h actions

end Indexer

end AsmIndex

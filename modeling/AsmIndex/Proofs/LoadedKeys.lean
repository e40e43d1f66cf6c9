import AsmIndex.Proofs.ChangeAlgebra
import AsmIndex.Proofs.IndexCounts
import AsmIndex.Proofs.RunningWalk
import Mathlib.Data.Set.Card

/-!
The keys that a pass loads. A pass loads a file under some symbols where it comes to the file, or
asks for its time or its text, and then turns to its imports. It does so once for each key of its
index and for no other key, and it counts each time; what it puts into the index at the end of a
file was there under the same key.
-/

namespace AsmIndex

/-- A file under incoming symbols; the file is told by its location. -/
abbrev Key := List Path.Component × Symbols

theorem ncard_setOf_mem {α : Type} {l : List α} (h : l.Nodup) :
    {x | x ∈ l}.ncard = l.length := by
  classical
  rw [← List.coe_toFinset, Set.ncard_coe_finset, List.toFinset_card_of_nodup h]

namespace Index

/-- The keys under which an index holds variants. -/
def keys (ix : Index) : Set Key :=
  {x | ∃ p : Path, p.components = x.1 ∧ ix.contains p x.2 = true}

theorem mem_keys {ix : Index} {p : Path} {s : Symbols} :
    (p.components, s) ∈ ix.keys ↔ ix.contains p s = true := by
  constructor
  · rintro ⟨q, hq, hcontains⟩
    rwa [contains_congr hq] at hcontains
  · intro h
    exact ⟨p, rfl, h⟩

theorem keys_insert (ix : Index) (p : Path) (s : Symbols) (v : Variant) :
    (ix.insert p s v).keys = {(p.components, s)} ∪ ix.keys := by
  ext ⟨cs, t⟩
  rw [Set.mem_union, Set.mem_singleton_iff, Prod.mk.injEq]
  constructor
  · rintro ⟨q, rfl, hcontains⟩
    exact ((contains_insert ix p q s t v).1 hcontains).imp_right mem_keys.2
  · rintro (⟨rfl, rfl⟩ | ⟨q, rfl, hcontains⟩)
    · exact ⟨p, rfl, (contains_insert ix p p t t v).2 (.inl ⟨rfl, rfl⟩)⟩
    · exact ⟨q, rfl, (contains_insert ix p q s t v).2 (.inr hcontains)⟩

/-- The files of an index without empty files are those of its keys. -/
theorem size_eq_ncard {ix : Index} (h : ix.Filled) : ix.size = (Prod.fst '' ix.keys).ncard := by
  have hmem : Prod.fst '' ix.keys = {cs | cs ∈ ix.paths.map Path.components} := by
    ext cs
    simp only [Set.mem_image, Set.mem_ofPred_eq, List.mem_map]
    constructor
    · rintro ⟨⟨_, s⟩, ⟨p, rfl, hcontains⟩, rfl⟩
      refine containsPath_iff.1 ?_
      by_contra habsent
      simp [contains, get?_of_containsPath (Bool.eq_false_iff.2 habsent)] at hcontains
    · rintro ⟨p, hp, rfl⟩
      obtain ⟨⟨q, set⟩, hset, rfl⟩ := List.mem_map.1 hp
      have hfile := OrderedMap.get?_of_mem_entries hset
      obtain ⟨s, v, hv⟩ := h q set hfile
      have hcontains := contains_iff.2 ⟨v, get?_eq_some.2 ⟨set, hfile, hv⟩⟩
      exact ⟨(q.components, s), mem_keys.2 hcontains, rfl⟩
  have hnodup : (ix.paths.map Path.components).Nodup := ix.ascending_paths.nodup
  rw [hmem, ncard_setOf_mem hnodup, List.length_map, paths, OrderedMap.keys, List.length_map]
  rfl

end Index

namespace Walk

/-- The file that a walk has come to and has not loaded. -/
def sought? (w : Walk) : Option Key :=
  match w.stage with
  | .enter p s => some (p.components, s)
  | .stamp p s => some (p.components, s)
  | .read p s _ => some (p.components, s)
  | _ => none

/-- The file that a walk has loaded, where `w'` is how it went on after `w`: it turns to the
imports of a file that it had come to. -/
def load? (w w' : Walk) : Option Key :=
  match w'.stage with
  | .follow _ => w.sought?
  | _ => none

section Load

variable {plan : Plan} {view : FileView} {cancelled : Bool} {w w' : Walk}

/-- To replace the variant of an open file gives no new key. -/
theorem Coherent.keys_replace (hw : w.Coherent plan) {frame : Frame}
    (stage : w.stage = .follow frame) (v : Variant) :
    (w.index.insert frame.path frame.symbols v).keys = w.index.keys := by
  have hold := Index.contains_iff.2 ⟨_, hw.held (frame, []) (by simp [opened_follow stage])⟩
  rw [Index.keys_insert, Set.union_eq_right, Set.singleton_subset_iff]
  exact Index.mem_keys.2 hold

theorem Coherent.keys_finish (hw : w.Coherent plan) {frame : Frame}
    (stage : w.stage = .follow frame) (plan' : Plan) :
    (w.finish plan' frame).index.keys = w.index.keys := by
  simp only [finish]
  split
  · rfl
  · exact hw.keys_replace stage _

/-- A step loads a new file and counts it, or it leaves the keys and the counts as they are. -/
theorem move_load (h : Move plan view cancelled w w') (hw : w.Coherent plan) :
    (∃ key, w.load? w' = some key ∧ key ∉ w.index.keys ∧
      w'.index.keys = {key} ∪ w.index.keys ∧
      w'.reused + w'.tokenized = w.reused + w.tokenized + 1) ∨
    (w.load? w' = none ∧ w'.index.keys = w.index.keys ∧
      w'.reused + w'.tokenized = w.reused + w.tokenized) := by
  have hnew : ∀ {p s v}, w.index.contains p s = false → w.sought? = some (p.components, s) →
      w'.index = w.index.insert p s v → (∃ f, w'.stage = .follow f) →
      w'.reused + w'.tokenized = w.reused + w.tokenized + 1 →
      ∃ key, w.load? w' = some key ∧ key ∉ w.index.keys ∧
        w'.index.keys = {key} ∪ w.index.keys ∧
        w'.reused + w'.tokenized = w.reused + w.tokenized + 1 := by
    rintro p s v hnew hsought hindex ⟨f, hstage⟩ hcount
    refine ⟨(p.components, s), by simp [load?, hstage, hsought], ?_, ?_, hcount⟩
    · rw [Index.mem_keys, hnew]
      exact Bool.false_ne_true
    · rw [hindex, Index.keys_insert]
  cases h with
  | reuseLive stage new =>
      exact .inl (hnew new (by simp [sought?, stage]) rfl ⟨_, rfl⟩ (Nat.add_right_comm _ _ _))
  | scanLive stage new =>
      exact .inl (hnew new (by simp [sought?, stage]) rfl ⟨_, rfl⟩ rfl)
  | reuseStored stage =>
      exact .inl (hnew (hw.new (.inl stage)) (by simp [sought?, stage]) rfl ⟨_, rfl⟩
        (Nat.add_right_comm _ _ _))
  | scanStored stage =>
      exact .inl
        (hnew (hw.new (.inr ⟨_, stage⟩)) (by simp [sought?, stage]) rfl ⟨_, rfl⟩ rfl)
  | replace stage => exact .inr ⟨rfl, hw.keys_replace stage _, rfl⟩
  | back stage inner =>
      exact .inr
        ⟨by simp [load?, sought?, stage, leave, inner], by simp, by simp [leave, inner]⟩
  | rest stage => exact .inr ⟨by simp [load?, stage], rfl, rfl⟩
  | _ stage => exact .inr ⟨by simp [load?, sought?, missing, stage], rfl, rfl⟩

/-- The log holds the keys of a walk, each of them once, and as many as the walk has counted. -/
structure Covered (log : List Key) (w : Walk) : Prop where
  once : log.Nodup
  keys : w.index.keys = {x | x ∈ log}
  counted : w.reused + w.tokenized = log.length

theorem covered_start (entry : Path) (symbols : Symbols) : (start entry symbols).Covered [] where
  once := .nil
  keys := by
    ext ⟨cs, s⟩
    simp [Index.keys, start, Index.contains]
  counted := rfl

theorem load?_of_sought? (h : w.sought? = none) (w' : Walk) : w.load? w' = none := by
  unfold load?
  split
  · exact h
  · rfl

theorem load?_self (w : Walk) : w.load? w = none := by
  unfold load?
  split
  · rename_i stage
    simp [sought?, stage]
  · rfl

theorem move_covered (h : Move plan view cancelled w w') (hw : w.Coherent plan) {log : List Key}
    (hlog : w.Covered log) : w'.Covered (log ++ (w.load? w').toList) := by
  rcases move_load h hw with ⟨key, hload, hnew, hkeys, hcount⟩ | ⟨hload, hkeys, hcount⟩
  · rw [hload, Option.toList_some]
    rw [hlog.keys] at hnew hkeys
    refine ⟨?_, ?_, ?_⟩
    · exact hlog.once.append (List.nodup_singleton key) (by simpa using hnew)
    · rw [hkeys]
      ext x
      simp [or_comm]
    · rw [hcount, hlog.counted, List.length_append, List.length_singleton]
  · rw [hload, Option.toList_none, List.append_nil]
    exact ⟨hlog.once, hkeys.trans hlog.keys, hcount.trans hlog.counted⟩

end Load

end Walk

namespace Indexer

/-- The walk of the pass of the call `k`, while it walks. -/
def walking? (ix : Indexer) (k : Nat) : Option Walk :=
  match ix.running with
  | some ⟨call, _, _, .walking w⟩ => if call = k then some w else none
  | _ => none

/-- What the pass of the call `k` loads with an action. -/
def load? (ix : Indexer) (k : Nat) (a : Action) : Option Key :=
  (ix.walking? k).bind fun w => ((ix.act a).walking? k).bind w.load?

/-- What the pass of the call `k` loads in a run. -/
def loads (ix : Indexer) (k : Nat) : List Action → List Key
  | [] => []
  | a :: rest => (ix.load? k a).toList ++ (ix.act a).loads k rest

theorem loads_concat (ix : Indexer) (k : Nat) (actions : List Action) (a : Action) :
    ix.loads k (actions ++ [a]) = ix.loads k actions ++ ((ix.run actions).load? k a).toList := by
  induction actions generalizing ix with
  | nil => simp [loads, run_nil]
  | cons b rest ih => simp [loads, ih, run_cons]

theorem walking?_eq_some {ix : Indexer} {k : Nat} {w : Walk} :
    ix.walking? k = some w ↔ ∃ r, ix.running = some r ∧ r.call = k ∧
      r.phase = .walking w := by
  unfold walking?
  constructor
  · intro h
    split at h
    · rename_i running
      split at h
      · rename_i hcall
        cases h
        exact ⟨_, running, hcall, rfl⟩
      · cases h
    · cases h
  · rintro ⟨⟨call, project, plan, phase⟩, running, rfl, rfl⟩
    simp [running]

section Events

variable {ix ix' : Indexer} {a : Action} {k : Nat} {w w' : Walk} {summary : Summary}

/-- A pass is about to report: it has come to the end of its walk, or it waits for tasks. -/
inductive Reports (ix : Indexer) (k : Nat) (summary : Summary) : Prop
  | walked {r w} (running : ix.running = some r) (hcall : r.call = k) (phase : r.phase = .walking w)
      (ended : w.ending? = some .complete) (reports : summary = r.summary w)
  | joining {r tasks} (running : ix.running = some r) (hcall : r.call = k)
      (phase : r.phase = .joining summary tasks)

theorem turn_walking (h : Turn ix ix') {r : Running} (running : ix'.running = some r) :
    ∃ w, r.phase = .walking w := by
  obtain ⟨_, _, _, _, _, _, rfl⟩ := turn_begun h running
  exact ⟨_, rfl⟩

theorem event_joining (h : Event ix a ix') {r : Running} {tasks : List Task}
    (running : ix'.running = some r) (phase : r.phase = .joining summary tasks) :
    ix.Reports r.call summary := by
  have hturn : ∀ {ix₁}, ¬ Turn ix₁ ix' := by
    intro ix₁ turn
    obtain ⟨w, hw⟩ := turn_walking turn running
    cases hw.symm.trans phase
  cases h with
  | ask asks waits =>
      rcases waits with rfl | turn
      · exact .joining running rfl phase
      · exact absurd turn hturn
  | stop waits =>
      rcases waits with rfl | turn
      · exact .joining running rfl phase
      · exact absurd turn hturn
  | turn turn => exact absurd turn hturn
  | walk _ _ _ _ =>
      cases running
      cases phase
  | abandon | fail | unchanged | join => cases running
  | publish running' phase' ended _ _ =>
      cases running
      cases phase
      exact .walked running' rfl phase' ended rfl
  | work running' phase' _ _ =>
      cases running
      cases phase
      exact .joining running' rfl phase'
  | _ => exact .joining running rfl phase

theorem waits_completed (h : Waits ix ix') (ho : (k, .completed summary) ∈ ix'.outcomes) :
    (k, .completed summary) ∈ ix.outcomes := by
  rcases h with rfl | turn
  · exact ho
  · cases turn <;> simpa [report] using ho

theorem event_completed (h : Event ix a ix') (ho : (k, .completed summary) ∈ ix'.outcomes) :
    (k, .completed summary) ∈ ix.outcomes ∨ ix.Reports k summary := by
  cases h with
  | ask asks waits | stop waits =>
      have hold := waits_completed waits ho
      exact .inl hold
  | turn turn => exact .inl (waits_completed (.inr turn) ho)
  | refuse | configure | abandon | fail => exact .inl (by simpa [report, endPass] using ho)
  | unchanged running phase ended _ _ =>
      rcases List.mem_append.1 ho with hold | hnew
      · exact .inl hold
      · cases List.mem_singleton.1 hnew
        exact .inr (.walked running rfl phase ended rfl)
  | join running phase =>
      rcases List.mem_append.1 ho with hold | hnew
      · exact .inl hold
      · cases List.mem_singleton.1 hnew
        exact .inr (.joining running rfl phase)
  | _ => exact .inl ho

/-- The call has been made, and it does not wait any more. -/
def Turned (ix : Indexer) (k : Nat) : Prop := k < ix.callCount ∧ k ∉ ix.queue.map Job.call

theorem Sound.turned (hix : ix.Sound) (hw : ix.walking? k = some w) : ix.Turned k := by
  obtain ⟨r, running, rfl, phase⟩ := walking?_eq_some.1 hw
  have hpursues := hix.pursues (P := fun _ => True) running phase trivial
  exact ⟨hpursues.made, hpursues.gone⟩

theorem load?_of_walking? (h : ix.walking? k = none) (a : Action) : ix.load? k a = none := by
  simp [load?, h]

/-- A pass loads nothing before its turn. -/
theorem Sound.load?_eq_none (hix : ix.Sound) (h : ¬ ix.Turned k) (a : Action) :
    ix.load? k a = none :=
  load?_of_walking? (Option.eq_none_iff_forall_ne_some.2 fun _ hw => h (hix.turned hw)) a

theorem Reports.load? (h : ix.Reports k summary) (a : Action) : ix.load? k a = none := by
  cases h with
  | walked running hcall phase ended reports =>
      have hwalk := walking?_eq_some.2 ⟨_, running, hcall, phase⟩
      rename_i w
      have hended : w.sought? = none := by
        unfold Walk.ending? at ended
        unfold Walk.sought?
        split at ended <;> simp_all
      simp [Indexer.load?, hwalk, Walk.load?_of_sought? hended]
  | joining running hcall phase =>
      refine load?_of_walking? (Option.eq_none_iff_forall_ne_some.2 fun w hw => ?_) a
      obtain ⟨r, running', _, phase'⟩ := walking?_eq_some.1 hw
      cases running.symm.trans running'
      cases phase.symm.trans phase'

end Events

/-- The summary gives the counts of the index of a walk that loaded what the log says. -/
def Settled (start : Indexer) (k : Nat) (actions : List Action) (log : List Key)
    (summary : Summary) :
    Prop :=
  ∃ index, start.Computes actions k index ∧ index.Filled ∧ index.keys = {x | x ∈ log} ∧
    summary.files = index.size ∧ summary.variants = index.variantCount ∧
    summary.reused + summary.tokenized = summary.variants ∧ summary.variants = log.length

/-- What the pass of a call has loaded after a run, and what its index and its summary say of it. -/
structure Loaded (start : Indexer) (k : Nat) (actions : List Action) (log : List Key) : Prop where
  once : log.Nodup
  fresh : ¬ (start.run actions).Turned k → log = []
  walking : ∀ w, (start.run actions).walking? k = some w → w.Covered log
  joining : ∀ r summary tasks, (start.run actions).running = some r → r.call = k →
    r.phase = .joining summary tasks → start.Settled k actions log summary
  completed : ∀ summary, (k, .completed summary) ∈ (start.run actions).outcomes →
    start.Settled k actions log summary

section Loaded

variable {start : Indexer} {k : Nat} {actions : List Action} {log : List Key} {summary : Summary}

theorem Settled.concat (h : start.Settled k actions log summary) (a : Action) :
    start.Settled k (actions ++ [a]) log summary := by
  obtain ⟨index, ⟨mid, rest, r, w, rfl, hrun⟩, hindex⟩ := h
  exact ⟨index, ⟨mid, rest ++ [a], r, w, List.append_assoc _ _ _, hrun⟩, hindex⟩

/-- A pass reports what its walk has loaded. -/
theorem Loaded.settled (h : start.Loaded k actions log)
    (hentry : (start.run actions).WalksFromEntry)
    (hreports : (start.run actions).Reports k summary) : start.Settled k actions log summary := by
  cases hreports with
  | walked running hcall phase ended reports =>
      have hcovered := h.walking _ (walking?_eq_some.2 ⟨_, running, hcall, phase⟩)
      obtain ⟨symbols, hproceeds⟩ := hentry _ _ running phase
      have htallied := hproceeds.tallied
      refine ⟨_,
        ⟨actions, [], _, _, (List.append_nil _).symm, running, hcall, phase, ended, rfl⟩,
        htallied.filled, hcovered.keys, ?_⟩
      rw [reports]
      exact ⟨rfl, rfl, htallied.counted, htallied.counted.symm.trans hcovered.counted⟩
  | joining running hcall phase => exact h.joining _ _ _ running hcall phase

theorem Loaded.walk (h : start.Loaded k actions log) (hsound : (start.run actions).Sound)
    (hentry : (start.run actions).WalksFromEntry) (a : Action) {w : Walk}
    (hw : ((start.run actions).act a).walking? k = some w) :
    w.Covered (log ++ ((start.run actions).load? k a).toList) := by
  obtain ⟨r, running, hcall, phase⟩ := walking?_eq_some.1 hw
  cases event_walking (act_event _ a) running phase with
  | started reached turn =>
      obtain ⟨_, _, _, _, queued, _, rfl⟩ := turn_begun turn running
      have hwaits : ¬ (start.run actions).Turned k := by
        rintro ⟨hmade, hgone⟩
        rcases reached with rfl | hevent
        · exact hgone (List.mem_map.2 ⟨_, queued, hcall⟩)
        · exact (event_queue hevent hmade hgone).2 (List.mem_map.2 ⟨_, queued, hcall⟩)
      rw [hsound.load?_eq_none hwaits, h.fresh hwaits]
      cases phase
      exact Walk.covered_start _ _
  | stayed running' =>
      have hw₀ := walking?_eq_some.2 ⟨r, running', hcall, phase⟩
      simpa [load?, hw₀, hw, Walk.load?_self] using h.walking w hw₀
  | @stepped r₀ w₀ cancelled running' phase' same step =>
      have hw₀ := walking?_eq_some.2 ⟨r₀, running', by simpa [same] using hcall, phase'⟩
      obtain ⟨symbols, hproceeds⟩ := hentry _ _ running' phase'
      simp only [load?, hw₀, hw, Option.bind_some]
      exact Walk.move_covered (step ▸ Walk.step_move _ _ _ _)
        (hproceeds.preserves Walk.move_coherent (Walk.coherent_start _ _ _)) (h.walking w₀ hw₀)

theorem Loaded.concat (h : start.Loaded k actions log) (hsound : (start.run actions).Sound)
    (hentry : (start.run actions).WalksFromEntry) (a : Action) :
    start.Loaded k (actions ++ [a]) (log ++ ((start.run actions).load? k a).toList) := by
  have hevent := act_event (start.run actions) a
  have hrun : start.run (actions ++ [a]) = (start.run actions).act a := by
    rw [run_append, run_cons, run_nil]
  have hreports : ∀ {summary}, (start.run actions).Reports k summary →
      start.Settled k (actions ++ [a]) (log ++ ((start.run actions).load? k a).toList) summary := by
    intro summary hreports
    rw [hreports.load? a, Option.toList_none, List.append_nil]
    exact (h.settled hentry hreports).concat a
  refine ⟨?_, ?_, ?_, ?_, ?_⟩
  · cases hload : (start.run actions).load? k a with
    | none => simpa using h.once
    | some key =>
        obtain ⟨w, hw, hbind⟩ := Option.bind_eq_some_iff.1 hload
        obtain ⟨w', hw', _⟩ := Option.bind_eq_some_iff.1 hbind
        exact hload ▸ (h.walk hsound hentry a hw').once
  · intro hfresh
    rw [hrun] at hfresh
    have hbefore : ¬ (start.run actions).Turned k := fun hturned =>
      hfresh (event_queue hevent hturned.1 hturned.2)
    rw [hsound.load?_eq_none hbefore, h.fresh hbefore]
    rfl
  · intro w hw
    exact h.walk hsound hentry a (hrun ▸ hw)
  · intro r summary tasks running hcall phase
    exact hreports (hcall ▸ event_joining hevent (hrun ▸ running) phase)
  · intro summary ho
    rcases event_completed hevent (hrun ▸ ho) with hold | hnew
    · have hnone : (start.run actions).walking? k = none := by
        refine Option.eq_none_iff_forall_ne_some.2 fun w hw => ?_
        obtain ⟨r, running, hcall, _⟩ := walking?_eq_some.1 hw
        exact hsound.accounted.not_mem_outcomes (by simp [pendingCalls, running, hcall]) _ hold
      rw [load?_of_walking? hnone, Option.toList_none, List.append_nil]
      exact (h.completed summary hold).concat a
    · exact hreports hnew

theorem loaded_run (config : Config) (files : Memory) (actions : List Action) (k : Nat) :
    (new config files).Loaded k actions ((new config files).loads k actions) := by
  induction actions using List.reverseRecOn with
  | nil => constructor <;> simp [loads, run_nil, new, walking?]
  | append_singleton before a ih =>
      rw [loads_concat]
      exact ih.concat (run_sound (sound_new config files) before)
        (walksFromEntry_run config files before) a

/-- Along every run, the pass of a call loads no key twice. What it has loaded are the keys of its
index at every moment, and what it has counted is how many they are; to replace a variant at
the end of a file adds none. The summary of a completed pass tells of an index that its walk came
to: of all that was loaded, of the keys of that index and of the files among them. -/
theorem each_key_loaded_once (config : Config) (files : Memory) (actions : List Action) (k : Nat) :
    let start := new config files
    let ix := start.run actions
    let log := start.loads k actions
    log.Nodup ∧
    (∀ w, ix.walking? k = some w →
      w.index.keys = {x | x ∈ log} ∧ w.reused + w.tokenized = log.length ∧
      ∀ plan frame, w.stage = .follow frame →
      (w.finish plan frame).index.keys = w.index.keys) ∧
    ∀ summary, (k, .completed summary) ∈ ix.outcomes →
      ∃ index, start.Computes actions k index ∧ index.keys = {x | x ∈ log} ∧
        summary.reused + summary.tokenized = summary.variants ∧
        summary.variants = index.keys.ncard ∧ summary.files = (Prod.fst '' index.keys).ncard := by
  intro start ix log
  have hloaded := loaded_run config files actions k
  refine ⟨hloaded.once, ?_, ?_⟩
  · intro w hw
    have hcovered := hloaded.walking w hw
    obtain ⟨r, running, _, phase⟩ := walking?_eq_some.1 hw
    obtain ⟨symbols, hproceeds⟩ := walksFromEntry_run config files actions r w running phase
    have hcoherent := hproceeds.preserves Walk.move_coherent (Walk.coherent_start _ _ _)
    exact ⟨hcovered.keys, hcovered.counted,
      fun plan frame stage => hcoherent.keys_finish stage plan⟩
  · intro summary ho
    obtain ⟨index, hcomputes, hfilled, hkeys, hfiles, _, hcount, hlength⟩ :=
      hloaded.completed summary ho
    refine ⟨index, hcomputes, hkeys, hcount, ?_, hfiles.trans (Index.size_eq_ncard hfilled)⟩
    rw [hlength, hkeys, ncard_setOf_mem hloaded.once]

end Loaded

end Indexer

end AsmIndex

import AsmIndex.Proofs.PassTrace
import AsmIndex.Proofs.WalkMirror

/-!
What a pass finds out about files, and what it makes of it. Of a file that is not open in an
editor a pass learns when it was changed, and of every file, in the end, what its imports come to.
Together with the live buffers and the previous index these findings decide how the pass comes by
the variant of each file.
-/

namespace AsmIndex

/-- Something that a pass finds out about a file under some symbols. -/
inductive Finding
  /-- When the stored file was changed. -/
  | stamped (path : Path) (symbols : Symbols) (time : Nat)
  /-- What its imports came to, and the problems met. -/
  | followed (path : Path) (symbols : Symbols) (references : List Reference)
      (problems : List Diagnostic)

namespace Finding

/-- The time at which a file was changed, if the finding is of that file under these symbols. -/
def time? (p : Path) (s : Symbols) : Finding → Option Nat
  | .stamped q t time => if q.components = p.components ∧ t = s then some time else none
  | .followed _ _ _ _ => none

/-- What the imports of a file came to, with the problems met, if the finding is of that file
under these symbols. -/
def imports? (p : Path) (s : Symbols) : Finding → Option (List Reference × List Diagnostic)
  | .stamped _ _ _ => none
  | .followed q t references problems =>
    if q.components = p.components ∧ t = s then some (references, problems) else none

end Finding

/-- What a pass has found out so far. -/
abbrev Findings := List Finding

namespace Findings

/-- When a file was changed, as the pass learned last. -/
def time? (found : Findings) (p : Path) (s : Symbols) : Option Nat :=
  (found.filterMap (Finding.time? p s)).getLast?

/-- What the imports of a file came to, as the pass learned last. -/
def imports? (found : Findings) (p : Path) (s : Symbols) :
    Option (List Reference × List Diagnostic) :=
  (found.filterMap (Finding.imports? p s)).getLast?

theorem time?_add (found : Findings) (finding : Option Finding) (p : Path) (s : Symbols) :
    time? (found ++ finding.toList) p s = (finding.bind (Finding.time? p s)).or
      (found.time? p s) := by
  cases finding with
  | none => simp
  | some finding => exact getLast?_filterMap_concat _ _ _

theorem imports?_add (found : Findings) (finding : Option Finding) (p : Path) (s : Symbols) :
    imports? (found ++ finding.toList) p s =
      (finding.bind (Finding.imports? p s)).or (found.imports? p s) := by
  cases finding with
  | none => simp
  | some finding => exact getLast?_filterMap_concat _ _ _

theorem time?_congr {p q : Path} (h : p.components = q.components) (found : Findings)
    (s : Symbols) : found.time? p s = found.time? q s := by
  have hp : Finding.time? p s = Finding.time? q s := by
    funext finding
    cases finding <;> simp only [Finding.time?, h]
  simp only [time?, hp]

theorem imports?_congr {p q : Path} (h : p.components = q.components) (found : Findings)
    (s : Symbols) : found.imports? p s = found.imports? q s := by
  have hp : Finding.imports? p s = Finding.imports? q s := by
    funext finding
    cases finding <;> simp only [Finding.imports?, h]
  simp only [imports?, hp]

end Findings

namespace Plan

/-- Whether a pass takes over the previous variant `u` of a file: it was made of the live buffer
as it is, or of the stored file as it was when the pass asked. -/
def Reuses (plan : Plan) (found : Findings) (p : Path) (s : Symbols) (u : Variant) : Prop :=
  plan.previous.get? p s = some u ∧
    ((∃ buffer, plan.live.get? p = some buffer ∧ u.FromBuffer buffer) ∨
      (plan.live.get? p = none ∧ ∃ time, found.time? p s = some time ∧ u.FromStored time))

end Plan

namespace Walk

/-- What a walk finds out with its next step. -/
def finding? (view : FileView) (w : Walk) : Option Finding :=
  match w.stage with
  | .stamp p s =>
    match view.modified p with
    | .ok time => some (.stamped p s time)
    | .error _ => none
  | .follow f =>
    if f.pending.isEmpty then some (.followed f.path f.symbols f.followed f.problems) else none
  | _ => none

/-- How a pass comes by the variant with which it registers a file: it takes over the previous
one, or makes one of the text. -/
inductive Origin (plan : Plan) (found : Findings) (p : Path) (s : Symbols) : Variant → Prop
  | reused {v} (reuses : plan.Reuses found p s v) : Origin plan found p s v
  | scanned {serial q text time live} (same : q.components = p.components)
      (changed : ∀ u, ¬ plan.Reuses found p s u) :
      Origin plan found p s (variantOf plan serial q s text time live)

/-- How a pass comes by the variant with which it closes a file: it keeps the one of the
beginning, or replaces it where the imports came to something else than that says. -/
inductive Verdict (plan : Plan) (found : Findings) (p : Path) (s : Symbols) : Variant → Prop
  | kept {v} (origin : Origin plan found p s v)
      (imports : found.imports? p s = some (v.references, v.resolutionDiagnostics)) :
      Verdict plan found p s v
  | replaced {v references problems serial} (origin : Origin plan found p s v)
      (imports : found.imports? p s = some (references, problems))
      (changed : ¬ (references = v.references ∧ problems = v.resolutionDiagnostics)) :
      Verdict plan found p s (v.withReferences ⟨plan.pass, serial⟩ references problems)

section Findings

variable {plan : Plan} {view : FileView} {cancelled : Bool} {found found' : Findings} {p q : Path}
  {s : Symbols} {v : Variant} {w w' : Walk}

/-- The reuse test depends on the location of a file and on the time that was found. -/
theorem reuses_iff (hq : q.components = p.components)
    (htime : found'.time? q s = found.time? p s) (u : Variant) :
    plan.Reuses found' q s u ↔ plan.Reuses found p s u := by
  have hlive : plan.live.get? q = plan.live.get? p :=
    OrderedMap.get?_congr (Path.compare_eq_iff.2 hq) _
  simp only [Plan.Reuses, Index.get?_congr hq, hlive, htime]

theorem Origin.congr (h : Origin plan found p s v) (hq : q.components = p.components)
    (htime : found'.time? q s = found.time? p s) : Origin plan found' q s v := by
  cases h with
  | reused reuses => exact .reused ((reuses_iff hq htime _).2 reuses)
  | scanned same changed =>
      exact .scanned (same.trans hq.symm) fun u hu => changed u ((reuses_iff hq htime u).1 hu)

theorem Verdict.congr (h : Verdict plan found p s v) (hq : q.components = p.components)
    (htime : found'.time? q s = found.time? p s)
    (himports : found'.imports? q s = found.imports? p s) : Verdict plan found' q s v := by
  cases h with
  | kept origin imports => exact .kept (origin.congr hq htime) (himports.trans imports)
  | replaced origin imports changed =>
      exact .replaced (origin.congr hq htime) (himports.trans imports) changed

/-- What a step finds out about when a file was changed is of a file that is not in the index. -/
theorem time?_finding (hw : w.Coherent plan) (hp : w.index.contains p s = true) :
    Findings.time? (found ++ (w.finding? view).toList) p s = found.time? p s := by
  rw [Findings.time?_add]
  unfold finding?
  split
  · rename_i q t stage
    split
    · have hnew := hw.new (.inl stage)
      have hother : ¬ (q.components = p.components ∧ t = s) := by
        rintro ⟨hq, rfl⟩
        rw [Index.contains_congr hq, hp] at hnew
        cases hnew
      simp [Finding.time?, hother]
    · rfl
  · split <;> simp [Finding.time?]
  · rfl

theorem time?_stamp {time : Nat} (stage : w.stage = .stamp p s)
    (answer : view.modified p = .ok time) :
    Findings.time? (found ++ (w.finding? view).toList) p s = some time := by
  rw [Findings.time?_add]
  simp [finding?, stage, answer, Finding.time?]

theorem imports?_follow {f : Frame} (stage : w.stage = .follow f) (done : f.pending = []) :
    Findings.imports? (found ++ (w.finding? view).toList) f.path f.symbols =
      some (f.followed, f.problems) := by
  rw [Findings.imports?_add]
  simp [finding?, stage, done, Finding.imports?]

/-- What a step finds out about imports is of a file that is open. -/
theorem imports?_finding (hclosed : ¬ w.IsOpen p s) :
    Findings.imports? (found ++ (w.finding? view).toList) p s = found.imports? p s := by
  rw [Findings.imports?_add]
  unfold finding?
  split
  · split <;> rfl
  · rename_i f stage
    split
    · have hother : ¬ (f.path.components = p.components ∧ f.symbols = s) := fun hkey =>
        hclosed ⟨(f, []), by simp [opened_follow stage], hkey⟩
      simp [Finding.imports?, hother]
    · rfl
  · rfl

end Findings

/-- The files of a walk have come to what the findings of the pass decide. -/
structure Logged (plan : Plan) (found : Findings) (w : Walk) : Prop where
  read : ∀ {p s t}, w.stage = .read p s t → found.time? p s = some t ∧
    ∀ u, plan.previous.get? p s = some u → ¬ u.FromStored t
  opened : ∀ x ∈ w.opened, Origin plan found x.1.path x.1.symbols x.1.variant
  closed : ∀ p s v, w.index.get? p s = some v → w.IsOpen p s ∨ Verdict plan found p s v

theorem logged_start (plan : Plan) (entry : Path) (symbols : Symbols) :
    (start entry symbols).Logged plan [] := by
  refine ⟨by simp [start], by simp [start, Walk.opened], ?_⟩
  intro p s v hv
  simp [start] at hv

section Logged

variable {plan : Plan} {view : FileView} {cancelled : Bool} {found : Findings} {w w' : Walk}

/-- What the next step finds out changes nothing about the files that the walk knows. -/
theorem Logged.extend (hw : w.Logged plan found) (hcoherent : w.Coherent plan) (view : FileView) :
    w.Logged plan (found ++ (w.finding? view).toList) where
  read := by
    intro p s t hstage
    have hnone : w.finding? view = none := by simp [finding?, hstage]
    simpa [hnone] using hw.read hstage
  opened := by
    intro x hx
    have hcontains := Index.contains_iff.2 ⟨_, hcoherent.held x hx⟩
    exact (hw.opened x hx).congr rfl (time?_finding hcoherent hcontains)
  closed := by
    intro p s v hv
    by_cases hopen : w.IsOpen p s
    · exact .inl hopen
    · right
      have hcontains := Index.contains_iff.2 ⟨v, hv⟩
      exact ((hw.closed p s v hv).resolve_left hopen).congr rfl (time?_finding hcoherent hcontains)
        (imports?_finding hopen)

theorem Registers.origin {p : Path} {s : Symbols} {v : Variant}
    (h : Registers plan view w p s v) (hcoherent : w.Coherent plan) (hw : w.Logged plan found) :
    Origin plan (found ++ (w.finding? view).toList) p s v := by
  cases h with
  | reuseLive stage live previous same => exact .reused ⟨previous, .inl ⟨_, live, same⟩⟩
  | @scanLive buffer stage live changed =>
      refine .scanned rfl ?_
      rintro u ⟨hu, ⟨buffer', hbuffer, same⟩ | ⟨hnone, _⟩⟩
      · cases live.symm.trans hbuffer
        exact changed u hu same
      · cases live.symm.trans hnone
  | @reuseStored time v stage answer previous same =>
      exact .reused ⟨previous,
        .inr ⟨hcoherent.stored (.inl stage), time, time?_stamp stage answer,
        same⟩⟩
  | @scanStored time text stage answer =>
      obtain ⟨htime, hchanged⟩ := (hw.extend hcoherent view).read stage
      have hstored := hcoherent.stored (.inr ⟨time, stage⟩)
      refine .scanned rfl ?_
      rintro u ⟨hu, ⟨buffer, hbuffer, _⟩ | ⟨_, t, ht, same⟩⟩
      · cases hstored.symm.trans hbuffer
      · cases htime.symm.trans ht
        exact hchanged u hu same

theorem Closes.verdict {f : Frame} {v : Variant} (h : Closes plan w f v)
    (hcoherent : w.Coherent plan) (hcanonical : w.Canonical) (hw : w.Logged plan found) :
    Verdict plan (found ++ (w.finding? view).toList) f.path f.symbols v := by
  cases h with
  | keep stage done same problems =>
      have hopened := opened_follow stage
      have horigin := (hw.extend hcoherent view).opened (f, []) (by simp [hopened])
      have hreferences := hcoherent.followed_eq hcanonical stage same
      refine .kept horigin ?_
      rw [imports?_follow stage done, hreferences, problems]
  | replace stage done changed =>
      have horigin := (hw.extend hcoherent view).opened (f, []) (by simp [opened_follow stage])
      refine .replaced horigin (imports?_follow stage done) ?_
      rintro ⟨hreferences, problems⟩
      refine changed ⟨?_, problems⟩
      rw [hreferences]
      exact Variant.sameReferences_self _

theorem move_logged (h : Move plan view cancelled w w') (hcoherent : w.Coherent plan)
    (hcanonical : w.Canonical) (hvalid : w'.stage ≠ .ended .cancelled)
    (hw : w.Logged plan found) :
    w'.Logged plan (found ++ (w.finding? view).toList) where
  read := by
    intro p s t hstage
    obtain ⟨stage, answer, changed⟩ := move_read h hstage
    exact ⟨time?_stamp stage answer, changed⟩
  opened := by
    intro x hx
    rcases move_opened h hx with ⟨y, hy, hpath, hsymbols, hvariant⟩ | hregisters
    · rw [← hpath, ← hsymbols, ← hvariant]
      exact (hw.extend hcoherent view).opened y hy
    · exact hregisters.origin hcoherent hw
  closed := by
    intro p s v hv
    by_cases hopen : w'.IsOpen p s
    · exact .inl hopen
    · right
      rcases move_closed h hcoherent hvalid hv hopen with
        ⟨hold, hopen'⟩ | ⟨f, hpath, rfl, hcloses⟩
      · exact ((hw.extend hcoherent view).closed p s v hold).resolve_left hopen'
      · exact (hcloses.verdict hcoherent hcanonical hw).congr hpath.symm
          (Findings.time?_congr hpath.symm _ _) (Findings.imports?_congr hpath.symm _ _)

theorem move_canonical (hprevious : ∀ p s v, plan.previous.get? p s = some v →
    ∀ r ∈ v.references, r.Canonical) (h : Move plan view cancelled w w')
    (hcoherent : w.Coherent plan) (hw : w.Canonical) : w'.Canonical :=
  (move_holds h (upholds_canonical hprevious) hcoherent ⟨hw, fun _ => trivial⟩).index

/-- A step that finds something out is not held back. -/
theorem going_of_finding {finding : Finding} (h : w.finding? view = some finding) (m : Memory) :
    w.ending? = none ∧ ¬ w.HeldBack m := by
  unfold finding? at h
  split at h
  · rename_i p s stage
    simp [ending?, HeldBack, stage]
  · rename_i f stage
    simp [ending?, HeldBack, stage]
  · cases h

end Logged

end Walk

namespace Indexer

/-- What the pass of the call `k` finds out with an action. -/
def finds (ix : Indexer) (k : Nat) (a : Action) : Findings :=
  match a, ix.running with
  | .advance, some r =>
    match r.phase with
    | .walking w => if r.call = k then (w.finding? ix.files.view).toList else []
    | .joining _ _ => []
  | _, _ => []

/-- What the pass of the call `k` finds out in a run. -/
def findings (ix : Indexer) (k : Nat) : List Action → Findings
  | [] => []
  | a :: rest => ix.finds k a ++ (ix.act a).findings k rest

/-- How far the walk of the pass `r` has come with the actions `after`, and what it has found
out. -/
structure Explored (start : Indexer) (r : Running) (after : List Action) (w : Walk) : Prop where
  reached : ∃ mid rest, after = mid ++ rest ∧
    (start.run mid).running = some { r with phase := .walking w }
  coherent : w.Coherent r.plan
  canonical : w.Canonical
  logged : w.stage ≠ .ended .cancelled → w.Logged r.plan (start.findings r.call after)

section Findings

variable {start ix : Indexer} {r : Running} {a : Action} {after : List Action} {w : Walk}
  {P : Walk → Prop}

theorem findings_concat (ix : Indexer) (k : Nat) (after : List Action) (a : Action) :
    ix.findings k (after ++ [a]) = ix.findings k after ++ (ix.run after).finds k a := by
  induction after generalizing ix with
  | nil => simp [findings, run_nil]
  | cons b rest ih => simp [findings, ih, run_cons]

theorem Steps.finds (h : ix.Steps a r w) :
    ix.finds r.call a = (w.finding? ix.files.view).toList := by
  simp [Indexer.finds, h.advance, h.running]

/-- A pass that takes no step finds nothing out. -/
theorem finds_eq_nil (htrace : Trace r P ix) (hix : ix.Accounted) (hno : ∀ w, ¬ ix.Steps a r w) :
    ix.finds r.call a = [] := by
  unfold finds
  split
  · rename_i r' running
    split
    · rename_i w phase
      split
      · rename_i hcall
        obtain ⟨rfl, _⟩ := htrace.walk_of_running hix running hcall phase
        cases hfinding : w.finding? ix.files.view with
        | none => rfl
        | some finding =>
            obtain ⟨going, free⟩ := Walk.going_of_finding hfinding ix.files
            exact absurd ⟨rfl, running, going, free⟩ (hno w)
      · rfl
    · rfl
  · rfl

theorem Explored.wait (h : Explored start r after w)
    (hfinds : (start.run after).finds r.call a = []) : Explored start r (after ++ [a]) w where
  reached := by
    obtain ⟨mid, rest, rfl, running⟩ := h.reached
    exact ⟨mid, rest ++ [a], by simp, running⟩
  coherent := h.coherent
  canonical := h.canonical
  logged := by
    rw [findings_concat, hfinds, List.append_nil]
    exact h.logged

theorem Explored.step (h : Explored start r after w) (steps : (start.run after).Steps a r w)
    (hprevious : ∀ p s v, r.plan.previous.get? p s = some v →
      ∀ r ∈ v.references, r.Canonical)
    (cancelled : Bool)
    (running : (start.run (after ++ [a])).running =
      some { r with phase := .walking (w.step r.plan (start.run after).files.view cancelled) }) :
    Explored start r (after ++ [a]) (w.step r.plan (start.run after).files.view cancelled) where
  reached := ⟨after ++ [a], [], by simp, running⟩
  coherent := Walk.move_coherent (Walk.step_move _ _ _ _) h.coherent
  canonical := Walk.move_canonical hprevious (Walk.step_move _ _ _ _) h.coherent h.canonical
  logged := by
    intro hvalid
    have hbefore : w.stage ≠ .ended .cancelled := by
      intro hstage
      simpa [Walk.ending?, hstage] using steps.going
    rw [findings_concat, steps.finds]
    exact Walk.move_logged (Walk.step_move _ _ _ _) h.coherent h.canonical hvalid (h.logged hbefore)

/-- From the turn of a pass on, its walk has come to what its findings decide. -/
theorem explored_trace (hix : start.Sound) {entry : Path} {symbols : Symbols}
    (running : start.running = some r) (phase : r.phase = .walking (Walk.start entry symbols))
    (hprevious : ∀ p s v, r.plan.previous.get? p s = some v →
      ∀ r ∈ v.references, r.Canonical)
    (after : List Action) : Trace r (Explored start r after) (start.run after) := by
  induction after using List.reverseRecOn with
  | nil =>
      have running' : start.running = some { r with
          phase := .walking (Walk.start entry symbols) } := by
        rw [running, ← phase]
      refine .walking running' ⟨⟨[], [], rfl, running'⟩, Walk.coherent_start _ _ _, ?_,
        fun _ => ?_⟩
      · intro p s v hv
        simp [Walk.start] at hv
      · exact Walk.logged_start _ _ _
  | append_singleton after a htrace =>
      have hsound := run_sound hix after
      rw [run_append, run_cons, run_nil]
      by_cases hsteps : ∃ w, (start.run after).Steps a r w
      · obtain ⟨w, steps⟩ := hsteps
        obtain ⟨_, hw⟩ := htrace.walk_of_running hsound.accounted steps.running rfl rfl
        have hact := act_advance_walk steps.running rfl steps.going steps.free
        obtain rfl := steps.advance
        refine .walking (by rw [hact]) (hw.step steps hprevious _ ?_)
        rw [run_append, run_cons, run_nil, hact]
      · have hno : ∀ w, ¬ (start.run after).Steps a r w := fun w hw => hsteps ⟨w, hw⟩
        have hfinds := finds_eq_nil htrace hsound.accounted hno
        refine event_trace (act_event _ a) hsound ?_ (htrace.mono fun w hw => hw.wait hfinds)
        exact fun _ steps => absurd steps (hno _)

/-- A pass starts from the index that is published when its turn comes. -/
theorem Begins.previous (h : ix.Begins a r) (hix : ix.Sound) :
    r.plan.previous = (ix.act a).snapshot.index := by
  obtain ⟨_, phase⟩ := h.phase
  exact (event_sound (act_event ix a) hix).grounded.previous h.turn phase

/-- The variants that a pass starts from come from earlier passes. -/
theorem Begins.older (h : ix.Begins a r) (hix : ix.Sound) (p : Path) (s : Symbols) (u : Variant)
    (hu : r.plan.previous.get? p s = some u) : u.id.pass < r.plan.pass := by
  have hsound := event_sound (act_event ix a) hix
  obtain ⟨_, phase⟩ := h.phase
  rw [h.previous hix] at hu
  have hlt := hsound.ordered.after r.plan.pass (by simp [pending_of_walking h.turn phase])
  exact Nat.lt_of_le_of_lt (hsound.grounded.ids hu) hlt

/-- A pass that completes has computed an index, and the variants of that index are those that its
findings decide. -/
theorem Begins.completed (h : ix.Begins a r) (hix : ix.Sound)
    (hcanonical : ∀ p s v, (ix.act a).snapshot.index.get? p s = some v →
      ∀ r ∈ v.references, r.Canonical) {summary : Summary}
    (completed : (r.call, .completed summary) ∈ ((ix.act a).run after).outcomes) :
    ∃ w, (ix.act a).Computes after r.call w.index ∧ summary = r.summary w ∧
      (((ix.act a).run after).snapshot.pass ≤ r.plan.pass →
        ∀ p s, ((ix.act a).run after).snapshot.index.get? p s = w.index.get? p s) ∧
      ∀ p s v, w.index.get? p s = some v →
        Walk.Verdict r.plan ((ix.act a).findings r.call after) p s v := by
  have hsound := event_sound (act_event ix a) hix
  obtain ⟨symbols, phase⟩ := h.phase
  have htrace := explored_trace hsound h.turn phase (by rwa [h.previous hix]) after
  rcases htrace.outcome (run_sound hsound after).accounted completed with
    heq | ⟨_, _, _, _, heq⟩ | ⟨w, hw, ended, heq, hshown⟩
  · cases heq
  · cases heq
  · cases heq
    refine ⟨w, ?_, rfl, hshown, ?_⟩
    · obtain ⟨mid, rest, hafter, running⟩ := hw.reached
      exact ⟨mid, rest, _, w, hafter, running, rfl, rfl, ended, rfl⟩
    · intro p s v hv
      have hlogged := hw.logged (by simp [Walk.stage_of_ending ended])
      exact (hlogged.closed p s v hv).resolve_left (hw.coherent.not_isOpen ended p s)

end Findings

end Indexer

end AsmIndex

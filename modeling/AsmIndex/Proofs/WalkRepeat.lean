import AsmIndex.Proofs.Termination
import AsmIndex.Proofs.WalkMirror

/-!
A walk that starts from the index which a complete walk of the same files has left. It goes
through the same files in the same order, takes over every variant as it is, reads no text, and
ends with the index that it started from.
-/

namespace AsmIndex

namespace Variant

namespace Akin

variable {v v' v'' : Variant}

theorem refl (v : Variant) : v.Akin v := ⟨rfl, rfl, rfl, rfl, rfl, rfl, rfl, rfl, rfl, rfl⟩

theorem symm (h : v.Akin v') : v'.Akin v :=
  ⟨h.path.symm, h.relativePath.symm, h.tokens.symm, h.unresolved.symm, h.inSymbols.symm,
    h.outSymbols.symm, h.modified.symm, h.liveContent.symm, h.importOnce.symm, h.diagnostics.symm⟩

theorem trans (h : v.Akin v') (h' : v'.Akin v'') : v.Akin v'' :=
  ⟨h.path.trans h'.path, h.relativePath.trans h'.relativePath, h.tokens.trans h'.tokens,
    h.unresolved.trans h'.unresolved, h.inSymbols.trans h'.inSymbols,
    h.outSymbols.trans h'.outSymbols, h.modified.trans h'.modified,
    h.liveContent.trans h'.liveContent, h.importOnce.trans h'.importOnce,
    h.diagnostics.trans h'.diagnostics⟩

theorem fromBuffer (h : v.Akin v') {buffer : LiveBuffer} (hv : v.FromBuffer buffer) :
    v'.FromBuffer buffer :=
  ⟨h.liveContent.symm.trans hv.1, h.modified.symm.trans hv.2⟩

theorem fromStored (h : v.Akin v') {time : Nat} (hv : v.FromStored time) : v'.FromStored time :=
  ⟨h.liveContent.symm.trans hv.1, h.modified.symm.trans hv.2⟩

end Akin

end Variant

namespace Walk

/-- Each key keeps its variant up to what is known of its imports, and the keys of closed files
keep it as it is. -/
def Retains (w w' : Walk) : Prop :=
  ∀ p s v, w.index.get? p s = some v → ∃ v', w'.index.get? p s = some v' ∧ v.Akin v' ∧
    (w.IsOpen p s ∨ v' = v ∧ ¬ w'.IsOpen p s)

section Retains

variable {plan : Plan} {view : FileView} {cancelled : Bool} {w w' w'' : Walk}

theorem Retains.trans (h : w.Retains w') (h' : w'.Retains w'') : w.Retains w'' := by
  intro p s v hv
  obtain ⟨v', hv', hakin, hclosed⟩ := h p s v hv
  obtain ⟨v'', hv'', hakin', hclosed'⟩ := h' p s v' hv'
  refine ⟨v'', hv'', hakin.trans hakin', ?_⟩
  rcases hclosed with hopen | ⟨rfl, hnot⟩
  · exact .inl hopen
  · exact .inr (hclosed'.resolve_left hnot)

/-- The index stays, and no file is opened. -/
theorem Retains.of_index (hindex : w'.index = w.index) (hopen : w'.openKeys ⊆ w.openKeys) :
    w.Retains w' := by
  intro p s v hv
  refine ⟨v, by rw [hindex, hv], .refl v, ?_⟩
  by_cases hopened : w.IsOpen p s
  · exact .inl hopened
  · refine .inr ⟨rfl, fun hopened' => hopened ?_⟩
    obtain ⟨q, hq, hpath⟩ := isOpen_iff.1 hopened'
    exact isOpen_iff.2 ⟨q, hopen hq, hpath⟩

/-- A new file is registered and opened. -/
theorem Retains.register {q : Path} {t : Symbols} {u : Variant}
    (hnew : w.index.contains q t = false) (hindex : w'.index = w.index.insert q t u)
    (hopen : w'.openKeys = (q, t) :: w.openKeys) : w.Retains w' := by
  intro p s v hv
  have hother : ¬ (p.components = q.components ∧ s = t) := by
    rintro ⟨hpath, rfl⟩
    have hcontains := Index.contains_iff.2 ⟨v, hv⟩
    rw [Index.contains_congr hpath, hnew] at hcontains
    cases hcontains
  refine ⟨v, by rw [hindex, Index.get?_insert, if_neg hother, hv], .refl v, ?_⟩
  by_cases hopened : w.IsOpen p s
  · exact .inl hopened
  · refine .inr ⟨rfl, fun hopened' => hopened ?_⟩
    obtain ⟨q', hq', hpath⟩ := isOpen_iff.1 hopened'
    rw [hopen, List.mem_cons] at hq'
    rcases hq' with heq | hold
    · cases heq
      exact absurd ⟨hpath.symm, rfl⟩ hother
    · exact isOpen_iff.2 ⟨q', hold, hpath⟩

/-- The variant of an open file is replaced. -/
theorem Retains.replace (hw : w.Coherent plan) {f : Frame} (stage : w.stage = .follow f)
    (done : f.pending = []) (id : VariantId)
    (hindex : w'.index = w.index.insert f.path f.symbols
      (f.variant.withReferences id f.followed f.problems))
    (hopen : w'.openKeys ⊆ w.openKeys) : w.Retains w' := by
  intro p s v hv
  have hopened := opened_follow stage
  by_cases hkey : p.components = f.path.components ∧ s = f.symbols
  · refine ⟨_, by rw [hindex, Index.get?_insert, if_pos hkey], ?_, .inl ?_⟩
    · rw [hkey.2, Index.get?_congr hkey.1, hw.held (f, []) (by simp [hopened])] at hv
      cases hv
      have hbalanced := (hw.innermost hopened).balanced
      rw [done, List.append_nil, List.append_nil] at hbalanced
      exact ⟨rfl, rfl, rfl, hbalanced.symm, rfl, rfl, rfl, rfl, rfl, rfl⟩
    · exact ⟨(f, []), by simp [hopened], hkey.1.symm, hkey.2.symm⟩
  · refine ⟨v, by rw [hindex, Index.get?_insert, if_neg hkey, hv], .refl v, ?_⟩
    by_cases hold : w.IsOpen p s
    · exact .inl hold
    · refine .inr ⟨rfl, fun hopened' => hold ?_⟩
      obtain ⟨q, hq, hpath⟩ := isOpen_iff.1 hopened'
      exact isOpen_iff.2 ⟨q, hopen hq, hpath⟩

theorem move_retains (h : Move plan view cancelled w w') (hw : w.Coherent plan) :
    w.Retains w' := by
  have hregister : ∀ {q t u} {a : Walk}, w.index.contains q t = false →
      a.stack = w.stack → a.index = w.index → w.opened = w.stack.map (fun x => (x.1, [x.2])) →
      w.Retains (a.register q t u) := by
    intro q t u a hnew hstack hindex hopened
    refine .register (u := u) hnew (by rw [← hindex]; rfl) ?_
    simp only [openKeys, hopened]
    simp [opened, Walk.register, hstack]
  cases h with
  | reuseLive stage new | scanLive stage new =>
      exact hregister new rfl rfl (by simp [opened, stage])
  | reuseStored stage => exact hregister (hw.new (.inl stage)) rfl rfl (by simp [opened, stage])
  | scanStored stage =>
      exact hregister (hw.new (.inr ⟨_, stage⟩)) rfl rfl (by simp [opened, stage])
  | replace stage done => exact .replace hw stage done _ rfl (by simp [openKeys, opened, stage])
  | back stage inner =>
      exact .of_index (by simp) (by simp [openKeys, opened, stage, leave, inner, Frame.add])
  | rest => exact .of_index rfl (List.Subset.refl _)
  | quitEnter stage | quitFollow stage | known stage | askTime stage | noTime stage | askText stage
  | noText stage | look stage | skip stage | missing stage | meet stage | descend stage
  | keep stage | finish stage | fail stage =>
      exact .of_index rfl (by simp [openKeys, opened, stage, missing, Frame.add])

theorem run_retains (hw : w.Coherent plan) (view : FileView) (n : Nat) :
    w.Retains (w.run plan view n) := by
  have hrun : (w.run plan view n).Coherent plan ∧ w.Retains (w.run plan view n) :=
    run_preserves (P := fun a => a.Coherent plan ∧ w.Retains a)
      (fun hmove ha => ⟨move_coherent hmove ha.1, ha.2.trans (move_retains hmove ha.1)⟩)
      ⟨hw, .of_index rfl (List.Subset.refl _)⟩ n
  exact hrun.2

end Retains

section Load

variable {plan : Plan} {view : FileView} {w : Walk} {p : Path} {s : Symbols}

/-- A file that is open in an editor is registered with a variant of its buffer. -/
theorem step_live (view : FileView) {buffer : LiveBuffer} (stage : w.stage = .enter p s)
    (new : w.index.contains p s = false) (live : plan.live.get? p = some buffer) :
    ∃ v reused tokenized made, v.FromBuffer buffer ∧
      w.step plan view false = { w with reused, tokenized, made }.register p s v := by
  by_cases hfits : ∃ v, plan.previous.get? p s = some v ∧ v.FromBuffer buffer
  · obtain ⟨v, hprevious, hsame⟩ := hfits
    exact ⟨v, _, _, _, hsame, (Move.reuseLive stage new live hprevious hsame).step_eq⟩
  · exact ⟨_, _, _, _, ⟨rfl, rfl⟩, (Move.scanLive stage new live fun v hv hsame =>
      hfits ⟨v, hv, hsame⟩).step_eq⟩

/-- A stored file that can be loaded is registered with a variant of the time that it was
changed. -/
theorem run_stored {time : Nat} (stage : w.stage = .stamp p s)
    (answer : view.modified p = .ok time) (stored : plan.live.get? p = none)
    (hloads : plan.Loads view p s) :
    ∃ n v reused tokenized made, v.FromStored time ∧
      w.run plan view n = { w with reused, tokenized, made }.register p s v := by
  have hgoing : w.ending? = none := by simp [ending?, stage]
  by_cases hfits : ∃ v, plan.previous.get? p s = some v ∧ v.FromStored time
  · obtain ⟨v, hprevious, hsame⟩ := hfits
    refine ⟨1, v, w.reused + 1, w.tokenized, w.made, hsame, ?_⟩
    rw [run_of_going hgoing, run, (Move.reuseStored stage answer hprevious hsame).step_eq]
    rfl
  · have hchanged : ∀ v, plan.previous.get? p s = some v → ¬ v.FromStored time :=
      fun v hv hsame => hfits ⟨v, hv, hsame⟩
    obtain ⟨text, hread⟩ : ∃ text, view.read p = .ok text := by
      have hloads' := Plan.loads_iff.1 hloads
      simpa [stored, answer, hfits] using hloads'
    refine ⟨2, variantOf plan w.made p s text time none, w.reused, w.tokenized + 1, w.made + 1,
      ⟨rfl, rfl⟩, ?_⟩
    rw [run_of_going hgoing, (Move.askText stage answer hchanged).step_eq, run_of_going rfl, run,
      (Move.scanStored rfl hread).step_eq]
    rfl

end Load

/-- A pass with `plan` goes over the files of a pass with `plan'`: the files are the same, the
pass with `plan'` has come to its end, and what it left is what the pass with `plan` starts
from. -/
structure Retraces (plan plan' : Plan) (m : Memory) (entry : Path) (symbols : Symbols) : Prop where
  alike : plan.Alike plan'
  fresh : ∀ p s v, plan.previous.get? p s = some v → v.Fresh m p s
  fresh' : ∀ p s v, plan'.previous.get? p s = some v → v.Fresh m p s
  canonical' : ∀ p s v, plan'.previous.get? p s = some v → ∀ r ∈ v.references, r.Canonical
  left : ∃ n, ((start entry symbols).run plan' m.view n).ending? = some .complete ∧
    ∀ p s, plan.previous.get? p s = ((start entry symbols).run plan' m.view n).index.get? p s

/-- A walk has taken over what is in its index. -/
structure Repeats (plan : Plan) (w : Walk) : Prop where
  index : ∀ p s v, w.index.get? p s = some v → plan.previous.get? p s = some v
  tokenized : w.tokenized = 0

theorem repeats_start (plan : Plan) (entry : Path) (symbols : Symbols) :
    (start entry symbols).Repeats plan where
  index := by
    intro p s v hv
    simp [start] at hv
  tokenized := rfl

theorem Repeats.reuse {plan : Plan} {w : Walk} (h : w.Repeats plan) {p : Path} {s : Symbols}
    {v : Variant} (hv : plan.previous.get? p s = some v) : (w.reuse p s v).Repeats plan where
  index := Index.forall_insert (P := fun p s v => plan.previous.get? p s = some v)
    (fun hq hv => (Index.get?_congr hq _ _).trans hv) h.index hv
  tokenized := h.tokenized

namespace Retraces

variable {plan plan' : Plan} {m : Memory} {entry : Path} {symbols : Symbols} {w : Walk} {k : Nat}

theorem canonical (h : Retraces plan plan' m entry symbols) (p : Path) (s : Symbols) (v : Variant)
    (hv : plan.previous.get? p s = some v) : ∀ r ∈ v.references, r.Canonical := by
  obtain ⟨n, _, hleft⟩ := h.left
  rw [hleft] at hv
  exact run_canonical h.canonical' m.view entry symbols n p s v hv

/-- What the earlier walk has at some point is, up to its imports, what it leaves; the variants of
closed files it leaves as they are. -/
theorem held (h : Retraces plan plan' m entry symbols) {p : Path} {s : Symbols} {v : Variant}
    (hv : ((start entry symbols).run plan' m.view k).index.get? p s = some v) :
    ∃ u, plan.previous.get? p s = some u ∧ v.Akin u ∧
      (((start entry symbols).run plan' m.view k).IsOpen p s ∨ u = v) := by
  obtain ⟨n, hend, hleft⟩ := h.left
  obtain ⟨u, hu, hakin, hclosed⟩ :=
    run_retains (run_coherent plan' m.view entry symbols k) m.view n p s v hv
  rw [← run_add, Nat.add_comm, run_add, run_of_ended hend, ← hleft] at hu
  exact ⟨u, hu, hakin, hclosed.imp_right And.left⟩

theorem loads (h : Retraces plan plan' m entry symbols) {p : Path} {s : Symbols} {u : Variant}
    (hu : plan.previous.get? p s = some u) : plan'.Loads m.view p s := by
  obtain ⟨n, _, hleft⟩ := h.left
  rw [hleft] at hu
  exact (run_explores h.fresh' n).loads (Index.contains_iff.2 ⟨u, hu⟩)

/-- Where the earlier walk registers a file, the later one can take over its variant. -/
theorem reuse (h : Retraces plan plan' m entry symbols)
    (hm : w.Mirrors ((start entry symbols).run plan' m.view k)) {p : Path} {s : Symbols}
    {v : Variant} {n reused tokenized made : Nat}
    (hrun : ((start entry symbols).run plan' m.view k).run plan' m.view n =
      { (start entry symbols).run plan' m.view k with reused, tokenized, made }.register p s v)
    (hopened : w.opened = w.stack.map fun x => (x.1, [x.2])) :
    ∃ u, plan.previous.get? p s = some u ∧ v.Akin u ∧
      ∃ j, (w.reuse p s u).Mirrors ((start entry symbols).run plan' m.view j) := by
  rw [← run_add] at hrun
  obtain ⟨u, hu, hakin, _⟩ := h.held (k := k + n) (p := p) (s := s) (v := v)
    (by rw [hrun]; exact Index.get?_insert_self _ _ _ _)
  have hregister := hm.toMatches.register hakin.symm (p := p) (s := s) hopened
  refine ⟨u, hu, hakin, k + n, ?_⟩
  rw [hrun]
  exact hregister.recount

/-- The variant of a live buffer is taken over. -/
theorem live (h : Retraces plan plan' m entry symbols)
    (hm : w.Mirrors ((start entry symbols).run plan' m.view k)) {p : Path} {s : Symbols}
    {buffer : LiveBuffer} (stage : w.stage = .enter p s) (new : w.index.contains p s = false)
    (live : plan.live.get? p = some buffer) :
    ∃ u, plan.previous.get? p s = some u ∧ u.FromBuffer buffer ∧
      ∃ j, (w.reuse p s u).Mirrors ((start entry symbols).run plan' m.view j) := by
  have stage' := hm.stage_eq stage (by simp [opened, stage])
  have live' : plan'.live.get? p = some buffer := by rw [h.alike.live, live]
  obtain ⟨v, reused, tokenized, made, hv, hstep⟩ := step_live m.view stage'
    (by rw [hm.keys, new]) live'
  obtain ⟨u, hu, hakin, hj⟩ := h.reuse hm (n := 1)
    (by rw [run_of_going (by simp [ending?, stage']), run]; exact hstep) (by simp [opened, stage])
  exact ⟨u, hu, hakin.fromBuffer hv, hj⟩

/-- The variant of a stored file is taken over if it is there. -/
theorem stored (h : Retraces plan plan' m entry symbols) (hw : w.Coherent plan)
    (hm : w.Mirrors ((start entry symbols).run plan' m.view k)) {p : Path} {s : Symbols}
    {time : Nat} {v : Variant} (stage : w.stage = .stamp p s)
    (answer : m.view.modified p = .ok time) (previous : plan.previous.get? p s = some v) :
    ∃ j, (w.reuse p s v).Mirrors ((start entry symbols).run plan' m.view j) := by
  have stage' := hm.stage_eq stage (by simp [opened, stage])
  have stored' : plan'.live.get? p = none := by rw [h.alike.live, hw.stored (.inl stage)]
  obtain ⟨n, _, _, _, _, _, hrun⟩ := run_stored stage' answer stored' (h.loads previous)
  obtain ⟨u, hu, _, hj⟩ := h.reuse hm hrun (by simp [opened, stage])
  cases previous.symm.trans hu
  exact hj

/-- Where no variant of a stored file can be taken over, the earlier walk asks for the text as
well. -/
theorem asksText (h : Retraces plan plan' m entry symbols)
    (hm : w.Mirrors ((start entry symbols).run plan' m.view k)) {p : Path} {s : Symbols}
    {time : Nat} (stage : w.stage = .stamp p s) (answer : m.view.modified p = .ok time)
    (changed : ∀ v, plan.previous.get? p s = some v → ¬ v.FromStored time) :
    ∃ j, { w with stage := .read p s time }.Mirrors
      ((start entry symbols).run plan' m.view j) := by
  have stage' := hm.stage_eq stage (by simp [opened, stage])
  have hgoing : ((start entry symbols).run plan' m.view k).ending? = none := by
    simp [ending?, stage']
  have changed' : ∀ v, plan'.previous.get? p s = some v → ¬ v.FromStored time := by
    intro v hv hstored
    have hmove : Move plan' m.view false _ _ := .reuseStored stage' answer hv hstored
    obtain ⟨u, hu, hakin, _⟩ := h.reuse hm (n := 1)
      (by rw [run_of_going hgoing, run]; exact hmove.step_eq) (by simp [opened, stage])
    exact changed u hu (hakin.fromStored hstored)
  have hmove : Move plan' m.view false _ _ := .askText stage' answer changed'
  refine ⟨k + 1, ?_⟩
  rw [run_succ, hmove.step_eq]
  exact hm.go (.read _ _ _) hm.stack (by simp [openKeys, opened, stage]) rfl rfl rfl rfl

/-- The texts that the later walk asks for cannot be read. -/
theorem unreadable (h : Retraces plan plan' m entry symbols) (hw : Explores plan m entry symbols w)
    (hm : w.Mirrors ((start entry symbols).run plan' m.view k)) {p : Path} {s : Symbols}
    {time : Nat} (stage : w.stage = .read p s time) : ∃ e, m.view.read p = .error e := by
  cases hread : m.view.read p with
  | error e => exact ⟨e, rfl⟩
  | ok text =>
      have stage' := hm.stage_eq stage (by simp [opened, stage])
      have hmove : Move plan' m.view false _ _ := .scanStored stage' hread
      obtain ⟨u, hu, hakin, _⟩ := h.reuse hm (n := 1)
        (by rw [run_of_going (by simp [ending?, stage']), run]; exact hmove.step_eq)
        (by simp [opened, stage])
      exact absurd (hakin.fromStored ⟨rfl, rfl⟩) ((hw.holds.dated stage).2 u hu)

/-- The imports of a file turn out as its variant says. -/
theorem kept (h : Retraces plan plan' m entry symbols) (hw : w.Coherent plan)
    (hrepeats : w.Repeats plan) (hm : w.Mirrors ((start entry symbols).run plan' m.view k))
    {f : Frame} (stage : w.stage = .follow f) (done : f.pending = []) :
    f.followed = f.variant.references ∧ f.problems = f.variant.resolutionDiagnostics := by
  obtain ⟨f', stage', hakin⟩ := hm.follow stage
  have done' : f'.pending = [] := by
    have hpending := hakin.pending
    rw [done, List.map_nil] at hpending
    exact List.map_eq_nil_iff.1 hpending.symm
  have hw' := run_coherent plan' m.view entry symbols k
  have hrun : (start entry symbols).run plan' m.view (k + 1) =
      ((start entry symbols).run plan' m.view k).finish plan' f' := by
    rw [run_succ]
    exact (finish_move stage' done').step_eq
  obtain ⟨id, hget⟩ :=
    hw'.finish_get? (run_canonical h.canonical' m.view entry symbols k) stage'
  -- The earlier walk has closed the file, so it leaves the variant as it is then.
  have hclosed : ¬ ((start entry symbols).run plan' m.view (k + 1)).IsOpen f'.path f'.symbols := by
    rintro ⟨x, hx, hpath, hsymbols⟩
    have hdistinct := hw'.distinct
    rw [opened_follow stage', List.pairwise_cons] at hdistinct
    rw [hrun] at hx
    refine hdistinct.1 x ?_ ⟨hpath.symm, hsymbols.symm⟩
    simpa [opened] using hx
  obtain ⟨u, hu, _, hopen | rfl⟩ := h.held (k := k + 1)
    (by rw [hrun, hget f'.path f'.symbols, if_pos ⟨rfl, rfl⟩])
  · exact absurd hopen hclosed
  · have hheld := hrepeats.index _ _ _ (hw.held (f, []) (by simp [opened_follow stage]))
    rw [← hakin.path, ← hakin.symbols] at hu
    have hvariant : f.variant = f'.variant.withReferences id f'.followed f'.problems :=
      Option.some.inj (hheld.symm.trans hu)
    rw [hvariant]
    exact ⟨hakin.followed, hakin.problems⟩

/-- The earlier walk has made each move of the later one. -/
theorem mirrors (h : Retraces plan plan' m entry symbols) {a : Walk}
    (hmove : Move plan m.view false w a) (hw : Explores plan m entry symbols w)
    (hcanonical : w.Canonical) (hm : w.Mirrors ((start entry symbols).run plan' m.view k)) :
    ∃ j, a.Mirrors ((start entry symbols).run plan' m.view j) := by
  obtain hfetches | ⟨n, hn⟩ := hm.fetches_or h.alike hmove hw.coherent
    (run_coherent plan' m.view entry symbols k) hcanonical
    (run_canonical h.canonical' m.view entry symbols k)
  · cases hfetches with
    | reuseLive stage new live previous same =>
        obtain ⟨u, hu, _, hj⟩ := h.live hm stage new live
        cases previous.symm.trans hu
        exact hj
    | scanLive stage new live changed =>
        obtain ⟨u, hu, hsame, _⟩ := h.live hm stage new live
        exact absurd hsame (changed u hu)
    | reuseStored stage answer previous same =>
        exact h.stored hw.coherent hm stage answer previous
    | askText stage answer changed => exact h.asksText hm stage answer changed
    | scanStored stage answer =>
        obtain ⟨e, he⟩ := h.unreadable hw hm stage
        cases answer.symm.trans he
  · exact ⟨k + n, by rwa [run_add]⟩

/-- The later walk takes variants over and makes none. -/
theorem repeats (h : Retraces plan plan' m entry symbols) {a : Walk}
    (hmove : Move plan m.view false w a) (hw : Explores plan m entry symbols w)
    (hrepeats : w.Repeats plan) (hm : w.Mirrors ((start entry symbols).run plan' m.view k)) :
    a.Repeats plan := by
  cases hmove with
  | reuseLive _ _ _ previous => exact hrepeats.reuse previous
  | reuseStored _ _ previous => exact hrepeats.reuse previous
  | scanLive stage new live changed =>
      obtain ⟨u, hu, hsame, _⟩ := h.live hm stage new live
      exact absurd hsame (changed u hu)
  | scanStored stage answer =>
      obtain ⟨e, he⟩ := h.unreadable hw hm stage
      cases answer.symm.trans he
  | @replace f stage done changed =>
      obtain ⟨hfollowed, hproblems⟩ := h.kept hw.coherent hrepeats hm stage done
      refine absurd ⟨?_, hproblems⟩ changed
      rw [hfollowed]
      exact Variant.sameReferences_self _
  | back stage inner =>
      simp only [leave, inner]
      exact ⟨hrepeats.index, hrepeats.tokenized⟩
  | rest => exact hrepeats
  | _ => exact ⟨hrepeats.index, hrepeats.tokenized⟩

theorem run (h : Retraces plan plan' m entry symbols) (n : Nat) :
    ((start entry symbols).run plan m.view n).Repeats plan ∧
      ∃ k, ((start entry symbols).run plan m.view n).Mirrors
        ((start entry symbols).run plan' m.view k) := by
  induction n with
  | zero => exact ⟨repeats_start plan entry symbols, 0, mirrors_start entry symbols⟩
  | succ n ih =>
      obtain ⟨hrepeats, k, hm⟩ := ih
      have hw : Explores plan m entry symbols _ := run_explores h.fresh n
      rw [run_succ]
      exact ⟨h.repeats (step_move _ _ _ _) hw hrepeats hm,
        h.mirrors (step_move _ _ _ _) hw (run_canonical h.canonical m.view entry symbols n) hm⟩

/-- The later walk ends with the index that it started from. -/
theorem complete (h : Retraces plan plan' m entry symbols) {n : Nat} {ending : Ending}
    (hend : ((start entry symbols).run plan m.view n).ending? = some ending) :
    ending = .complete ∧ ∀ p s, ((start entry symbols).run plan m.view n).index.get? p s =
      plan.previous.get? p s := by
  obtain ⟨hrepeats, k, hm⟩ := h.run n
  obtain ⟨j, hcomplete, hleft⟩ := h.left
  have hend' : ((start entry symbols).run plan' m.view k).ending? = some ending := by
    have hstage := hm.stage
    rw [stage_of_ending hend] at hstage
    simp only [ending?]
    generalize ((start entry symbols).run plan' m.view k).stage = stage at hstage ⊢
    cases hstage
    rfl
  have hsame := run_eq_of_ended hend' hcomplete
  refine ⟨?_, fun p s => ?_⟩
  · rw [hsame, hcomplete] at hend'
    exact (Option.some.inj hend').symm
  · cases hv : ((start entry symbols).run plan m.view n).index.get? p s with
    | some v => exact (hrepeats.index p s v hv).symm
    | none =>
        have hkeys := hm.keys p s
        rw [hsame] at hkeys
        rw [hleft, eq_comm]
        simpa [Index.contains, hv] using hkeys

end Retraces

end Walk

end AsmIndex

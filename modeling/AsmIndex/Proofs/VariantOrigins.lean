import AsmIndex.Proofs.Freshness

/-!
Where variants come from. In the index of a pass, a file that is open in an editor is what its
live buffer is, and the pass does not read it; every other file is what is stored, also if it
was open in an earlier pass. A published variant of a stored file is up to date as long as the
file carries the time of the variant, also if the file was written while it was being read.
-/

namespace AsmIndex

theorem OrderedMap.ext {κ α : Type} [Ord κ] {m m' : OrderedMap κ α}
    (h : m.entries = m'.entries) :
    m = m' := by
  cases m
  cases m'
  cases h
  rfl

namespace LiveBuffers

/-- The buffer that was added last for a path, under whatever spelling. -/
def last? (buffers : List (Path × LiveBuffer)) (p : Path) : Option LiveBuffer :=
  (buffers.reverse.find? fun b => b.1.normalized.same p).map Prod.snd

theorem get?_ofList (buffers : List (Path × LiveBuffer)) (p : Path) :
    (ofList buffers).get? p = last? buffers p := by
  induction buffers using List.reverseRecOn with
  | nil => rfl
  | append_singleton front b ih =>
      have hfold : ofList (front ++ [b]) = (ofList front).add b.1 b.2 := by
        simp only [ofList, List.foldl_append, List.foldl_cons, List.foldl_nil]
      rw [hfold, add, OrderedMap.get?_insert, ih, last?, last?, List.reverse_append,
        List.reverse_singleton, List.singleton_append, List.find?_cons]
      by_cases hsame : p.components = b.1.normalized.components
      · simp [Path.compare_eq_iff, Path.same, hsame]
      · have hother : b.1.normalized.same p = false := by
          simpa [Path.same] using Ne.symm hsame
        simp [Path.compare_eq_iff, hsame, hother]

end LiveBuffers

namespace Variant

/-- A variant stands under its own path and symbols, and one with live content is what that content
is. -/
structure Filed (p : Path) (s : Symbols) (v : Variant) : Prop where
  path : v.path.components = p.components
  inSymbols : v.inSymbols = s
  live : ∀ content, v.liveContent = some content → v.ScanOf content s

/-- A variant is of the live buffer of its file, or of the stored file where there is no buffer. -/
structure Sourced (live : LiveBuffers) (p : Path) (s : Symbols) (v : Variant) : Prop where
  buffer : ∀ b, live.get? p = some b → v.FromBuffer b ∧ v.ScanOf b.content s
  stored : live.get? p = none → v.liveContent = none

end Variant

namespace Walk

variable {plan : Plan} {view : FileView}

theorem upholds_filed (hprevious : ∀ p s v, plan.previous.get? p s = some v → v.Filed p s) :
    Upholds plan view (fun _ _ _ => True) (fun p s v => v.Filed p s) where
  congr := fun hq hv => ⟨hv.path.trans hq.symm, hv.inSymbols, hv.live⟩
  reuseLive := fun _ hold _ => hprevious _ _ _ hold
  scanLive := by
    intro p s buffer serial _
    refine ⟨rfl, rfl, ?_⟩
    rintro content ⟨⟩
    exact scanOf_variantOf _ _ _ _ _ _ _
  reuseStored := fun _ _ hold _ => hprevious _ _ _ hold
  dated := fun _ _ => trivial
  scanStored := by
    intro p s t text serial _ _ _
    refine ⟨rfl, rfl, ?_⟩
    rintro content ⟨⟩
  replace := fun id htracks hdone hv =>
    ⟨hv.path, hv.inSymbols,
      fun content hcontent => htracks.scanOf hdone (hv.live content hcontent) id⟩

theorem upholds_sourced (hprevious : ∀ p s v, plan.previous.get? p s = some v → v.Filed p s) :
    Upholds plan view (fun _ _ _ => True) (fun p s v => v.Sourced plan.live p s) where
  congr := by
    intro p q s v hq hv
    have hget : plan.live.get? q = plan.live.get? p :=
      OrderedMap.get?_congr (Path.compare_eq_iff.2 hq) _
    exact ⟨fun b hb => hv.buffer b (hget ▸ hb), fun hnone => hv.stored (hget ▸ hnone)⟩
  reuseLive := by
    intro p s v buffer hlive hold hsame
    constructor
    · intro b hb
      cases hlive.symm.trans hb
      exact ⟨hsame, (hprevious p s v hold).live _ hsame.1⟩
    · intro hnone
      cases hlive.symm.trans hnone
  scanLive := by
    intro p s buffer serial hlive
    constructor
    · intro b hb
      cases hlive.symm.trans hb
      exact ⟨⟨rfl, rfl⟩, scanOf_variantOf _ _ _ _ _ _ _⟩
    · intro hnone
      cases hlive.symm.trans hnone
  reuseStored := by
    intro p s v t hnone _ _ hstored
    refine ⟨fun b hb => ?_, fun _ => hstored.1⟩
    cases hnone.symm.trans hb
  dated := fun _ _ => trivial
  scanStored := by
    intro p s t text serial hnone _ _
    refine ⟨fun b hb => ?_, fun _ => rfl⟩
    cases hnone.symm.trans hb
  replace := by
    intro f id htracks hdone hv
    refine ⟨fun b hb => ?_, hv.stored⟩
    obtain ⟨hbuffer, hscan⟩ := hv.buffer b hb
    exact ⟨hbuffer, htracks.scanOf hdone hscan id⟩

theorem Proceeds.sourced {entry : Path} {symbols : Symbols} {w : Walk}
    (h : Proceeds plan (start entry symbols) w)
    (hprevious : ∀ p s v, plan.previous.get? p s = some v → v.Filed p s) {p : Path}
    {s : Symbols} {v : Variant} (hv : w.index.get? p s = some v) :
    v.Filed p s ∧ v.Sourced plan.live p s := by
  have hw := h.preserves (P := fun w => w.Coherent plan ∧
      w.Holds (fun _ _ _ => True) (fun p s v => v.Filed p s) ∧
      w.Holds (fun _ _ _ => True) (fun p s v => v.Sourced plan.live p s)) ?_
    ⟨coherent_start _ _ _, holds_start _ _, holds_start _ _⟩
  · exact ⟨hw.2.1.index p s v hv, hw.2.2.index p s v hv⟩
  · rintro view cancelled a b hmove ⟨hcoherent, hfiled, hsourced⟩
    exact ⟨move_coherent hmove hcoherent,
      move_holds hmove (upholds_filed hprevious) hcoherent hfiled,
      move_holds hmove (upholds_sourced hprevious) hcoherent hsourced⟩

/-- What a walk registers on learning the time of a stored file is the previous variant, which
came from the file as it was at that time. -/
theorem Coherent.reused {w : Walk} (hw : w.Coherent plan) {cancelled : Bool} {p : Path}
    {s : Symbols} {v : Variant} (stage : w.stage = .stamp p s)
    (hv : (w.step plan view cancelled).index.get? p s = some v) :
    plan.previous.get? p s = some v ∧ ∃ t, view.modified p = .ok t ∧ v.FromStored t := by
  have hnew : ∀ u, w.index.get? p s ≠ some u := by
    intro u hu
    have hcontains := hw.new (.inl stage)
    rw [Index.contains, hu] at hcontains
    cases hcontains
  have hmove := step_move plan view cancelled w
  generalize w.step plan view cancelled = w' at hmove hv
  cases hmove with
  | noTime | askText => exact absurd hv (hnew v)
  | reuseStored stage' answer previous same =>
      cases stage.symm.trans stage'
      cases (Index.get?_insert_self _ _ _ _).symm.trans hv
      exact ⟨previous, _, answer, same⟩
  | _ => simp_all

end Walk

namespace Memory

theorem readCount_countRead (m : Memory) (p q : Path) :
    (m.countRead q).readCount p =
      if p.components = q.components then m.readCount q + 1 else m.readCount p := by
  simp only [countRead, readCount, OrderedMap.get?_insert, Path.compare_eq_iff]
  split <;> rfl

end Memory

namespace Indexer

variable {ix ix' : Indexer} {a : Action}

theorem filed_run (config : Config) (files : Memory) (actions : List Action) :
    Holding (fun _ _ _ _ => True) (fun _ p s v => v.Filed p s) ((new config files).run actions) :=
  holding_run Walk.upholds_filed config files actions

/-- A read of a path is counted only where the running pass reads it, or where attached tasks are
done. -/
theorem event_readCount (h : Event ix a ix') (p : Path) :
    ix'.files.readCount p = ix.files.readCount p ∨ ∃ r, ix.running = some r ∧
      ((∃ w q s t, r.phase = .walking w ∧ w.stage = .read q s t ∧
        q.components = p.components) ∨
        ∃ summary tasks, r.phase = .joining summary tasks) := by
  cases h with
  | ask asks waits | stop waits =>
      rw [(waits_settings waits).1]
      exact .inl rfl
  | turn h =>
      rw [(waits_settings (.inr h)).1]
      exact .inl rfl
  | files change => cases change <;> exact .inl rfl
  | @walk r w running phase _ _ =>
      by_cases hread : ∃ q s t, w.stage = .read q s t ∧ q.components = p.components
      · obtain ⟨q, s, t, stage, hq⟩ := hread
        exact .inr ⟨r, running, .inl ⟨w, q, s, t, phase, stage, hq⟩⟩
      · left
        dsimp only [Walk.counted]
        split
        · rename_i q s t stage
          rw [Memory.readCount_countRead, if_neg]
          intro hp
          exact hread ⟨q, s, t, stage, hp.symm⟩
        · rfl
  | work running phase _ _ => exact .inr ⟨_, running, .inr ⟨_, _, phase⟩⟩
  | _ => exact .inl rfl

theorem Pursues.readCount_eq {k : Nat} {plan : Plan} (hix : ix.Pursues k plan (Walk.Coherent plan))
    {r : Running} {w : Walk} (running : ix.running = some r) (hcall : r.call = k)
    (phase : r.phase = .walking w) {p : Path} {b : LiveBuffer} (live : plan.live.get? p = some b)
    (h : Event ix a ix') : ix'.files.readCount p = ix.files.readCount p := by
  rcases event_readCount h p with hcount | ⟨r', running', hreads⟩
  · exact hcount
  · cases running.symm.trans running'
    rcases hreads with ⟨w', q, s, t, phase', stage, hq⟩ | ⟨summary, tasks, phase'⟩
    · cases phase.symm.trans phase'
      have hstored := (hix.leads running hcall phase).2.stored (.inr ⟨t, stage⟩)
      rw [OrderedMap.get?_congr (Path.compare_eq_iff.2 hq), live] at hstored
      cases hstored
    · cases phase.symm.trans phase'

/-- From its turn on, and up to the step that ends its walk, a pass does not read a file that it
has a live buffer for. -/
theorem Begins.readCount_eq (hix : ix.Sound) {r : Running} (h : ix.Begins a r) {p : Path}
    {b : LiveBuffer} (live : r.plan.live.get? p = some b) (mid : List Action) {r' : Running}
    {w : Walk} (running : ((ix.act a).run mid).running = some r') (hcall : r'.call = r.call)
    (phase : r'.phase = .walking w) (c : Action) :
    (((ix.act a).run mid).act c).files.readCount p = (ix.act a).files.readCount p := by
  obtain ⟨symbols, hstart⟩ := h.phase
  have hsound := event_sound (act_event ix a) hix
  have hrun := run_preserves (P := fun ix' => ix'.Pursues r.call r.plan (Walk.Coherent r.plan) ∧
      ∀ r' w, ix'.running = some r' → r'.call = r.call → r'.phase = .walking w →
        ix'.files.readCount p = (ix.act a).files.readCount p) ?_
    ⟨hsound.pursues h.turn hstart (Walk.coherent_start _ _ _), fun _ _ _ _ _ => rfl⟩ mid
  · obtain ⟨hpursues, hcount⟩ := hrun
    exact (hpursues.readCount_eq running hcall phase live (act_event _ c)).trans
      (hcount r' w running hcall phase)
  · rintro ix₁ ix₂ c₁ hevent ⟨hpursues, hcount⟩
    refine ⟨event_pursues hevent (fun cancelled hw =>
      Walk.move_coherent (Walk.step_move _ _ _ _) hw)
      hpursues, ?_⟩
    intro r₂ w₂ running₂ hcall₂ phase₂
    obtain ⟨r₁, w₁, running₁, hcall₁, phase₁⟩ :=
      hpursues.walked hevent running₂ hcall₂ phase₂
    exact (hpursues.readCount_eq running₁ hcall₁ phase₁ live hevent).trans
      (hcount r₁ w₁ running₁ hcall₁ phase₁)

/-- Live buffers win and do not leak. Let a pass have its turn with live buffers that were added
in any order and under any spelling of their paths, and come to the end of its walk, whatever
happens to files meanwhile. Each variant in its index is of the content and the time of the last
buffer that was added for its path, if there is one, and else it has no live content; earlier
passes and their buffers do not matter. A file with a buffer is not read, neither while the pass
walks nor on the step that ends its walk. -/
theorem live_buffers_win (config : Config) (files : Memory) (before during : List Action)
    (a : Action) (r : Running) (index : Index) (buffers : List (Path × LiveBuffer))
    (begins : ((new config files).run before).Begins a r)
    (live : r.plan.live = LiveBuffers.ofList buffers)
    (computes : (((new config files).run before).act a).Computes during r.call index) :
    let ix := ((new config files).run before).act a
    (∀ p s v, index.get? p s = some v → v.path.components = p.components ∧ v.inSymbols = s ∧
        (∀ b, LiveBuffers.last? buffers v.path = some b →
          v.liveContent = some b.content ∧ v.modified = b.time ∧ v.ScanOf b.content s) ∧
        (LiveBuffers.last? buffers v.path = none → v.liveContent = none)) ∧
      ∀ p b, LiveBuffers.last? buffers p = some b →
      ∀ mid c r' w, (ix.run mid).running = some r' →
        r'.call = r.call → r'.phase = .walking w →
        ((ix.run mid).act c).files.readCount p = ix.files.readCount p := by
  intro ix
  have hsound : ((new config files).run before).Sound := run_sound (sound_new config files) before
  have hlast : ∀ p, r.plan.live.get? p = LiveBuffers.last? buffers p := by
    intro p
    rw [live, LiveBuffers.get?_ofList]
  constructor
  · intro p s v hv
    obtain ⟨symbols, phase⟩ := begins.phase
    have hsound' : ix.Sound := event_sound (act_event _ a) hsound
    obtain ⟨mid, rest, r', w, rfl, running, hcall, phase', ended, rfl⟩ := computes
    have hproceeds := (hsound'.proceeds begins.turn phase mid running hcall phase').2
    have hfiled := (filed_run config files (before ++ [a])).snapshot
    rw [run_append] at hfiled
    have hprevious : ∀ p s v, r.plan.previous.get? p s = some v → v.Filed p s := by
      rw [hsound'.grounded.previous begins.turn phase]
      exact hfiled
    obtain ⟨hv', hsourced⟩ := hproceeds.sourced hprevious hv
    have hpath : LiveBuffers.last? buffers v.path = r.plan.live.get? p := by
      rw [← hlast, OrderedMap.get?_congr (Path.compare_eq_iff.2 hv'.path)]
    rw [hpath]
    refine ⟨hv'.path, hv'.inSymbols, fun b hb => ?_, hsourced.stored⟩
    obtain ⟨hbuffer, hscan⟩ := hsourced.buffer b hb
    exact ⟨hbuffer.1, hbuffer.2, hscan⟩
  · intro p b hb mid c r' w running hcall phase
    exact begins.readCount_eq hsound ((hlast p).trans hb) mid running hcall phase c

/-- A pass has a file open in an editor; the time of its buffer is the time of the stored file. -/
def openedOnce : List Action :=
  [.write ⟨"/p/main.asm"⟩ "#import \"a.asm\"\n", .write ⟨"/p/a.asm"⟩ "rts\n",
    .call
    (.initial ⟨"/p"⟩ { live := LiveBuffers.ofList [(⟨"/p/a.asm"⟩, ⟨"nop\n", 2⟩)] })] ++
    List.replicate 12 .advance

/-- Two buffers of another file, the second one under another spelling. -/
def openedNow : List (Path × LiveBuffer) :=
  [(⟨"/p/main.asm"⟩, ⟨"", 3⟩),
    (⟨"/p/x/../main.asm"⟩, ⟨"nop\n#import \"a.asm\"\n", 1⟩)]

def reopened : Action := .call (.parse { live := LiveBuffers.ofList openedNow })

/-- The second buffer wins, and the file that is closed now is read. -/
theorem live_buffers_win_reopened :
    ∃ r index v u, ((new {} {}).run openedOnce).Executes reopened (List.replicate 10 .advance) r
        index ∧
      r.plan.live = LiveBuffers.ofList openedNow ∧
      index.get? ⟨"/p/main.asm"⟩ Symbols.empty = some v ∧
      v.liveContent = some "nop\n#import \"a.asm\"\n" ∧ v.modified = 1 ∧
      index.get? ⟨"/p/a.asm"⟩ Symbols.empty = some u ∧ u.liveContent = none := by
  obtain ⟨r, index, hwalked, h⟩ : ∃ r index,
      ((((new {} {}).run openedOnce).act reopened).run
        (List.replicate 10 .advance)).walked? = some (r.call, index) ∧
      ((new {} {}).run openedOnce).Executes reopened (List.replicate 10 .advance) r index :=
    exists_executes_walked (k := 1) (by decide +kernel) (by decide) (by decide +kernel)
      (by decide +kernel)
  have hlive : r.plan.live = LiveBuffers.ofList openedNow := by
    have hentries : (((new {} {}).run openedOnce).act reopened).running.any
        (fun r => r.plan.live.entries == (LiveBuffers.ofList openedNow).entries) = true := by
      decide +kernel
    rw [h.turn, Option.any_some, beq_iff_eq] at hentries
    exact OrderedMap.ext hentries
  have hindex : (((((new {} {}).run openedOnce).act reopened).run
      (List.replicate 10 .advance)).walked?.all fun x =>
        (x.2.get? ⟨"/p/main.asm"⟩ Symbols.empty).any (fun v => v.path == ⟨"/p/main.asm"⟩) &&
          (x.2.get? ⟨"/p/a.asm"⟩ Symbols.empty).any (fun v => v.path == ⟨"/p/a.asm"⟩)) =
          true := by
    decide +kernel
  simp only [hwalked, Option.all_some, Bool.and_eq_true, Option.any_eq_true, beq_iff_eq] at hindex
  obtain ⟨⟨v, hv, hpath⟩, u, hu, hpath'⟩ := hindex
  have hwins :=
    (live_buffers_win {} {} openedOnce _ _ r index openedNow h.begins hlive h.computes).1
  obtain ⟨-, -, hbuffer, -⟩ := hwins _ _ v hv
  obtain ⟨-, -, -, hstored⟩ := hwins _ _ u hu
  obtain ⟨hcontent, htime, -⟩ :=
    hbuffer ⟨"nop\n#import \"a.asm\"\n", 1⟩ (by rw [hpath]; decide +kernel)
  exact ⟨r, index, v, u, h, hlive, hv, hcontent, htime, hu,
    hstored (by rw [hpath']; decide +kernel)⟩

/-- Reuse by time is sound. Whatever is written and removed while passes ask for times and texts
of files, a published variant of a stored file is what the file is now, if the file has the time
of the variant. So a pass that takes over a variant on learning the time of a file takes over one
that is up to date. -/
theorem stored_variants_up_to_date (config : Config) (actions : List Action) :
    let ix := (new config {}).run actions
    (∀ p s v f, ix.snapshot.index.get? p s = some v → v.liveContent = none →
        ix.files.files.get? v.path = some f → f.modified = v.modified →
        v.ScanOf f.content v.inSymbols) ∧
      ∀ r w p s v, ix.running = some r → r.phase = .walking w → w.stage = .stamp p s →
        (w.step r.plan ix.files.view (ix.isCancelled r.plan.pass)).index.get? p s = some v →
        r.plan.previous.get? p s = some v ∧
          ∃ f, ix.files.files.get? p = some f ∧ v.FromStored f.modified ∧
          v.ScanOf f.content s := by
  intro ix
  have hfresh : ix.Fresh := fresh_run config (by intro p f hf; cases hf) actions
  constructor
  · intro p s v f hv hstored hf htime
    have hfiled := (filed_run config {} actions).snapshot p s v hv
    rw [OrderedMap.get?_congr (Path.compare_eq_iff.2 hfiled.path)] at hf
    rw [hfiled.inSymbols]
    exact (hfresh.holding.snapshot p s v hv).of_stored hf ⟨hstored, htime.symm⟩
  · intro r w p s v running phase stage hv
    obtain ⟨hprevious, t, hmodified, hstored⟩ :=
      (hfresh.holding.coherent running phase).reused stage hv
    obtain ⟨f, hf, rfl⟩ := Memory.modified_eq_ok.1 hmodified
    refine ⟨hprevious, f, hf, hstored, ?_⟩
    rw [hfresh.sound.grounded.previous running phase] at hprevious
    exact (hfresh.holding.snapshot p s v hprevious).of_stored hf hstored

/-- The entry file is written between the question for its time and the question for its text. -/
def writtenMeanwhile : List Action :=
  [.write ⟨"/p/main.asm"⟩ "#import \"a.asm\"\n", .write ⟨"/p/a.asm"⟩ "rts\n",
    .call (.initial ⟨"/p"⟩ {}), .advance, .advance,
    .write ⟨"/p/main.asm"⟩ "#import \"a.asm\"\nnop\n"] ++ List.replicate 20 .advance

/-- The variant of the entry file carries the time from before, which the file has no more; the
one of the other file is up to date. -/
theorem stored_variants_up_to_date_torn :
    ∃ v u f g,
      ((new {} {}).run writtenMeanwhile).snapshot.index.get? ⟨"/p/main.asm"⟩ Symbols.empty =
        some v ∧
      ((new {} {}).run writtenMeanwhile).files.files.get? v.path = some f ∧ v.modified = 1 ∧
      f.modified = 3 ∧
      ((new {} {}).run writtenMeanwhile).snapshot.index.get? ⟨"/p/a.asm"⟩
      Symbols.empty = some u ∧
      ((new {} {}).run writtenMeanwhile).files.files.get? u.path = some g ∧
      u.modified = g.modified ∧
      u.ScanOf g.content u.inSymbols := by
  have hentry : (((new {} {}).run writtenMeanwhile).snapshot.index.get? ⟨"/p/main.asm"⟩
      Symbols.empty).any (fun v => v.modified == 1 &&
        (((new {} {}).run writtenMeanwhile).files.files.get? v.path).any fun f => f.modified == 3) =
      true := by
    decide +kernel
  have hother : (((new {} {}).run writtenMeanwhile).snapshot.index.get? ⟨"/p/a.asm"⟩
      Symbols.empty).any (fun u => u.liveContent.isNone &&
        (((new {} {}).run writtenMeanwhile).files.files.get? u.path).any
          fun g => u.modified == g.modified) = true := by
    decide +kernel
  simp only [Option.any_eq_true, Bool.and_eq_true, beq_iff_eq,
    Option.isNone_iff_eq_none] at hentry hother
  obtain ⟨v, hv, htime, f, hf, hnow⟩ := hentry
  obtain ⟨u, hu, hstored, g, hg, hsame⟩ := hother
  have hscan := (stored_variants_up_to_date {} writtenMeanwhile).1 _ _ u g hu hstored hg hsame.symm
  exact ⟨v, u, f, g, hv, hf, htime, hnow, hu, hg, hsame, hscan⟩

end Indexer

end AsmIndex

import AsmIndex.Proofs.Locations
import AsmIndex.Proofs.ProjectSettings
import AsmIndex.Proofs.VariantOrigins
import AsmIndex.Proofs.WalkMirror

/-!
The keys of an index. Where projects are in absolute directories and nothing is stored or open at
the root, every file that a walk comes to is at a location, and so is every place where an import
is found. A file so has one key, however its imports are spelled, and its imports lead to the same
variants.
-/

namespace AsmIndex

/-- The files of an index are at locations, and their imports were found at locations. -/
structure Index.Anchored (index : Index) : Prop where
  keys : ∀ e ∈ index.files.entries, e.1.IsLocation
  variants : ∀ p s v, index.get? p s = some v →
    v.path.IsLocation ∧ ∀ r ∈ v.references, r.Anchored

theorem Index.anchored_empty : Index.Anchored {} := by
  refine ⟨by simp [OrderedMap.empty], ?_⟩
  intro p s v hv
  simp at hv

theorem Index.Anchored.insert {index : Index} (h : index.Anchored) {p : Path} {s : Symbols}
    {v : Variant} (hp : p.IsLocation)
    (hv : v.path.IsLocation ∧ ∀ r ∈ v.references, r.Anchored) :
    (index.insert p s v).Anchored where
  keys := by
    intro e he
    rcases OrderedMap.mem_store_key he with hkey | ⟨e', he', hkey⟩
    · rw [hkey]
      exact hp
    · rw [← hkey]
      exact h.keys e' he'
  variants :=
    Index.forall_insert (P := fun _ _ v => v.path.IsLocation ∧ ∀ r ∈ v.references, r.Anchored)
    (fun _ hv => hv) h.variants hv

theorem Index.Anchored.references {index : Index} (h : index.Anchored) {v : Variant}
    (hv : v ∈ index.variants) : ∀ r ∈ v.references, r.Anchored := by
  obtain ⟨p, s, hget⟩ := Index.exists_of_mem_variants hv
  exact (h.variants p s v hget).2

/-- No file is stored at the root. -/
structure FileView.Rootless (view : FileView) : Prop where
  modified : ∀ {p t}, view.modified p = .ok t → p.components ≠ [.root]
  read : ∀ {p text}, view.read p = .ok text → p.components ≠ [.root]

/-- What is stored in a map that has nothing at the root is elsewhere. -/
theorem OrderedMap.components_ne_root {α : Type} {m : OrderedMap Path α}
    (h : m.contains ⟨"/"⟩ = false) {p : Path} {v : α} (hp : m.get? p = some v) :
    p.components ≠ [.root] := by
  intro hroot
  rw [contains, ← get?_congr (Path.compare_eq_iff.2 hroot), hp] at h
  cases h

theorem Memory.rootless {m : Memory} (h : m.files.contains ⟨"/"⟩ = false) :
    m.view.Rootless where
  modified := by
    intro p t hp
    obtain ⟨f, hf, _⟩ := Memory.modified_eq_ok.1 hp
    exact OrderedMap.components_ne_root h hf
  read := by
    intro p text hp
    obtain ⟨_, f, hf, _⟩ := Memory.read_eq_ok.1 hp
    exact OrderedMap.components_ne_root h hf

/-- A pass has absolute library directories, no live buffer at the root, and a previous index that
is anchored. -/
structure Plan.Anchored (plan : Plan) : Prop where
  libraries : ∀ l ∈ plan.libraries, l.isAbsolute = true
  live : ∀ {p buffer}, plan.live.get? p = some buffer → p.components ≠ [.root]
  previous : plan.previous.Anchored

namespace Walk

/-- The imports that a file has followed, and the one that it is at, are anchored. -/
def Frame.Anchored (f : Frame) (current : List Reference) : Prop :=
  ∀ r ∈ f.followed ++ current, r.Anchored

theorem Frame.Anchored.change {f : Frame} {current : List Reference} (h : f.Anchored current)
    {r : Reference} (hr : r.Anchored) : f.Anchored [r] := by
  intro r' hr'
  rcases List.mem_append.1 hr' with hr' | hr'
  · exact h r' (List.mem_append_left _ hr')
  · obtain rfl := List.mem_singleton.1 hr'
    exact hr

theorem Frame.Anchored.add {f : Frame} {r : Reference} (h : f.Anchored [r])
    (problem : Option Diagnostic) : (f.add r problem).Anchored [] :=
  fun r' hr' => h r' (by simpa [Frame.add] using hr')

/-- The files that a walk comes to, has open and has registered are at locations, and so are the
places where it looks for imports and where it found them. -/
structure Anchored (w : Walk) : Prop where
  comes : ∀ {p s}, w.ComesTo p s → p.IsLocation
  candidates : ∀ {f r cs}, w.stage = .probe f r cs → ∀ q ∈ cs, (r.resolveTo q).Anchored
  files : ∀ x ∈ w.opened, x.1.path.IsInner
  references : ∀ x ∈ w.opened, x.1.Anchored x.2
  index : w.index.Anchored

theorem anchored_start {entry : Path} (h : entry.IsLocation) (symbols : Symbols) :
    (start entry symbols).Anchored where
  comes := by
    intro p s hcomes
    obtain ⟨rfl, _⟩ : entry = p ∧ symbols = s := by
      simpa [start, ComesTo, AsksFor] using hcomes
    exact h
  candidates := by simp [start]
  files := by simp [start, opened]
  references := by simp [start, opened]
  index := Index.anchored_empty

section Anchored

variable {plan : Plan} {view : FileView} {cancelled : Bool} {w w' : Walk}

theorem redirected_anchored {r : Reference} (h : r.Anchored) (w : Walk) (target : Path) :
    (w.redirected r target).Anchored := by
  refine h.of_eq ?_ (redirected_resolved w r target)
  unfold redirected
  split <;> rfl

/-- A file is registered at a location other than the root, with a variant that is anchored. -/
theorem Registers.anchored {p : Path} {s : Symbols} {v : Variant}
    (h : Registers plan view w p s v) (hplan : plan.Anchored) (hview : view.Rootless)
    (hw : w.Anchored) :
    p.IsInner ∧ v.path.IsLocation ∧ ∀ r ∈ v.references, r.Anchored := by
  cases h with
  | reuseLive stage live previous same =>
      exact ⟨⟨hw.comes (.inl stage), hplan.live live⟩,
        hplan.previous.variants _ _ _ previous⟩
  | scanLive stage live changed =>
      have hp := hw.comes (.inl stage)
      exact ⟨⟨hp, hplan.live live⟩, hp, fun r hr =>
        Reference.anchored_of_unresolved (Variant.resolved_variantOf hr)⟩
  | reuseStored stage answer previous same =>
      exact ⟨⟨hw.comes (.inr (.inl stage)), hview.modified answer⟩,
        hplan.previous.variants _ _ _ previous⟩
  | scanStored stage answer =>
      have hp := hw.comes (.inr (.inr ⟨_, stage⟩))
      exact ⟨⟨hp, hview.read answer⟩, hp, fun r hr =>
        Reference.anchored_of_unresolved (Variant.resolved_variantOf hr)⟩

theorem Closes.anchored {f : Frame} {v : Variant} (h : Closes plan w f v)
    (hcoherent : w.Coherent plan) (hw : w.Anchored) :
    f.path.IsLocation ∧ v.path.IsLocation ∧ ∀ r ∈ v.references, r.Anchored := by
  cases h with
  | keep stage =>
      have hopened : (f, []) ∈ w.opened := by simp [opened_follow stage]
      exact ⟨(hw.files _ hopened).1, hw.index.variants _ _ _ (hcoherent.held _ hopened)⟩
  | replace stage =>
      have hopened : (f, []) ∈ w.opened := by simp [opened_follow stage]
      have hpath := (hw.index.variants _ _ _ (hcoherent.held _ hopened)).1
      refine ⟨(hw.files _ hopened).1, hpath, ?_⟩
      exact fun r hr => hw.references _ hopened r (List.mem_append_left _ hr)

/-- The imports of open files stay anchored. -/
theorem move_references (h : Move plan view cancelled w w') (hw : w.Anchored)
    {x : Frame × List Reference} (hx : x ∈ w'.opened) : x.1.Anchored x.2 := by
  have houter : x ∈ w.stack.map (fun x => (x.1, [x.2])) → x.1.Anchored x.2 := fun hx =>
    hw.references x (w.stack_sublist_opened.subset hx)
  have hprobe : ∀ {f r cs}, w.stage = .probe f r cs → f.Anchored [r] := fun stage =>
    hw.references (_, [_]) (by rw [opened_probe stage]; exact List.mem_cons_self)
  cases h with
  | reuseLive | scanLive | reuseStored | scanStored =>
      rcases List.mem_cons.1 hx with rfl | hx
      · simp [Frame.Anchored]
      · exact houter hx
  | @look f r pending stage more =>
      have hf : f.Anchored [] := hw.references (f, []) (by simp [opened_follow stage])
      rcases List.mem_cons.1 hx with rfl | hx
      · exact hf.change (r := r.unresolved) (Reference.anchored_of_unresolved rfl)
      · exact houter hx
  | skip stage =>
      rcases List.mem_cons.1 hx with rfl | hx
      · exact hprobe stage
      · exact houter hx
  | missing stage =>
      rcases List.mem_cons.1 hx with rfl | hx
      · exact (hprobe stage).add _
      · exact houter hx
  | @meet f r path rest stage =>
      have hfound := redirected_anchored (hw.candidates stage path (by simp)) w path
      rcases List.mem_cons.1 hx with rfl | hx
      · exact ((hprobe stage).change hfound).add none
      · exact houter hx
  | @descend f r path rest stage =>
      rcases List.mem_cons.1 hx with rfl | hx
      · exact (hprobe stage).change (hw.candidates stage path (by simp))
      · exact houter hx
  | @back failure f r stack stage inner =>
      have hf : f.Anchored [r] := hw.references (f, [r]) (by simp [opened, stage, inner])
      have hfound := redirected_anchored (hf r (by simp)) w (r.resolved.getD ⟨""⟩)
      simp only [leave, inner] at hx houter
      rcases List.mem_cons.1 hx with rfl | hx
      · exact (hf.change hfound).add _
      · exact houter (List.mem_cons_of_mem _ hx)
  | rest _ => exact hw.references x hx
  | _ => exact houter hx

theorem move_anchored (h : Move plan view cancelled w w') (hplan : plan.Anchored)
    (hview : view.Rootless) (hcoherent : w.Coherent plan) (hw : w.Anchored) : w'.Anchored where
  comes := by
    intro p s hcomes
    rcases move_comesTo h hcomes with hcomes | ⟨f, r, rest, stage⟩
    · exact hw.comes hcomes
    · exact (hw.candidates stage p (by simp)).isLocation rfl
  candidates := by
    intro f r cs hstage
    cases h with
    | @look f' r' pending stage more =>
        cases hstage
        have hinner := hw.files (f', []) (by simp [opened_follow stage])
        exact fun q hq => Reference.anchored_of_candidates hinner.isAbsolute_directory
          hplan.libraries hq
    | skip stage _ =>
        cases hstage
        exact fun q hq => hw.candidates stage q (List.mem_cons_of_mem _ hq)
    | back stage inner => simp [leave, inner] at hstage
    | rest _ => exact hw.candidates hstage
    | _ => cases hstage
  files := by
    intro x hx
    rcases move_opened h hx with ⟨y, hy, hpath, _, _⟩ | hregisters
    · rw [← hpath]
      exact hw.files y hy
    · exact (hregisters.anchored hplan hview hw).1
  references := fun x hx => move_references h hw hx
  index := by
    rcases move_index h with hsame | ⟨p, s, v, hregisters, hindex⟩ | ⟨f, v, hcloses, hindex⟩
    · rw [hsame]
      exact hw.index
    · rw [hindex]
      obtain ⟨hp, hv⟩ := hregisters.anchored hplan hview hw
      exact hw.index.insert hp.1 hv
    · rw [hindex]
      obtain ⟨hp, hv⟩ := hcloses.anchored hcoherent hw
      exact hw.index.insert hp hv

end Anchored

end Walk

namespace Indexer

/-- The project is in an absolute directory, and nothing is stored or open at the root. -/
structure Rootless (ix : Indexer) : Prop where
  directory : ∀ project, ix.project = some project → project.directory.isAbsolute = true
  files : ix.files.files.contains ⟨"/"⟩ = false
  live : ∀ request, ix.lastRequest = some request → request.live.contains ⟨"/"⟩ = false

/-- The published index and the running walk are anchored. -/
structure Anchored (ix : Indexer) : Prop where
  snapshot : ix.snapshot.index.Anchored
  walk : ∀ {r w}, ix.running = some r → r.phase = .walking w →
    r.plan.Anchored ∧ w.Coherent r.plan ∧ w.Anchored

section Anchored

variable {ix ix' : Indexer} {a : Action}

theorem event_anchored_snapshot (h : Event ix a ix') (hix : ix.Anchored) :
    ix'.snapshot.index.Anchored := by
  rcases event_silent_or_publish h with
    ⟨hsnapshot, _⟩ | ⟨r, w, running, phase, _, _, _, rfl⟩
  · rw [hsnapshot]
    exact hix.snapshot
  · exact (hix.walk running phase).2.2.index

/-- A pass that gets its turn is anchored and starts at a location: the turn leaves the project
and the request as the indexer has them afterwards. -/
theorem begun_anchored (hix : ix.Anchored) (haligned : ix.Aligned) (hordered : ix.ledger.Ordered)
    (hrootless : ix'.Rootless) {ix₁ : Indexer} (reached : ix₁ = ix ∨ Event ix a ix₁)
    (turn : Turn ix₁ ix') {r : Running} (running : ix'.running = some r) :
    r.plan.Anchored ∧ ∃ symbols, r.phase = .walking (Walk.start r.project.entry symbols) ∧
      r.project.entry.IsLocation := by
  obtain ⟨call, id, project, request, hmem, hvalid, rfl⟩ := turn_begun turn running
  have hreached : ix₁.Aligned ∧ ix₁.snapshot.index.Anchored := by
    rcases reached with rfl | hevent
    · exact ⟨haligned, hix.snapshot⟩
    · exact ⟨event_aligned hevent hordered haligned, event_anchored_snapshot hevent hix⟩
  obtain ⟨hproject, hlast⟩ := hreached.1.waiting hmem hvalid
  have hstay := waits_settingsStay (.inr turn)
  have hdirectory := hrootless.directory project (hstay.project.trans hproject)
  have hlive := hrootless.live request (hstay.last.trans hlast)
  constructor
  · exact ⟨fun l hl => Path.isAbsolute_of_absolutize hdirectory hl,
      fun hp => OrderedMap.components_ne_root hlive hp, hreached.2⟩
  · refine ⟨ix₁.symbolsOf request, rfl, ?_⟩
    show project.entry.IsLocation
    rw [hreached.1.project hproject]
    exact Project.isLocation_entry hdirectory _

theorem event_anchored (h : Event ix a ix') (haligned : ix.Aligned) (hordered : ix.ledger.Ordered)
    (hrootless : ix.Rootless) (hrootless' : ix'.Rootless) (hix : ix.Anchored) : ix'.Anchored where
  snapshot := event_anchored_snapshot h hix
  walk := by
    intro r w running phase
    cases event_walking h running phase with
    | started reached turn =>
        obtain ⟨hplan, symbols, phase', hentry⟩ :=
          begun_anchored hix haligned hordered hrootless' reached turn running
        cases phase.symm.trans phase'
        exact ⟨hplan, Walk.coherent_start _ _ _, Walk.anchored_start hentry symbols⟩
    | stayed running' => exact hix.walk running' phase
    | stepped running' phase' same step =>
        obtain ⟨hplan, hcoherent, hanchored⟩ := hix.walk running' phase'
        rw [same, step]
        exact ⟨hplan, Walk.move_coherent (Walk.step_move _ _ _ _) hcoherent,
          Walk.move_anchored (Walk.step_move _ _ _ _) hplan (Memory.rootless hrootless.files)
            hcoherent hanchored⟩

theorem anchored_new (config : Config) (files : Memory) : (new config files).Anchored where
  snapshot := Index.anchored_empty
  walk := by simp [new]

theorem anchored_run {config : Config} {files : Memory} {actions : List Action}
    (h : ∀ before, before <+: actions → ((new config files).run before).Rootless) :
    ((new config files).run actions).Anchored := by
  induction actions using List.reverseRecOn with
  | nil => exact anchored_new config files
  | append_singleton before a ih =>
      have hbefore : before <+: before ++ [a] := List.prefix_append before [a]
      have hend := h _ (List.prefix_refl _)
      have hordered := (run_sound (sound_new config files) before).ordered
      rw [run_append] at hend ⊢
      exact event_anchored (act_event _ a) (aligned_run config files before).1 hordered
        (h before hbefore) hend (ih fun l hl => h l (hl.trans hbefore))

end Anchored

/-- The action establishes no project in a relative directory, and it neither stores nor opens a
file at the root. -/
def Action.Rootless : Action → Prop
  | .write path _ => path.components ≠ [.root]
  | .call (.initial directory request) =>
      directory.normalized.isAbsolute = true ∧ request.live.contains ⟨"/"⟩ = false
  | .call (.parse request) => request.live.contains ⟨"/"⟩ = false
  | _ => True

section Rootless

variable {ix ix' : Indexer} {a : Action}

theorem event_rootless_files (h : Event ix a ix') (ha : a.Rootless)
    (hix : ix.files.files.contains ⟨"/"⟩ = false) :
    ix'.files.files.contains ⟨"/"⟩ = false := by
  rcases event_files h with hsame | hchange
  · rw [hsame.files]
    exact hix
  · generalize ix'.files = m at hchange
    cases hchange with
    | write path content =>
        rw [Bool.eq_false_iff] at hix ⊢
        intro hcontains
        rcases (OrderedMap.contains_insert _ _ _ _).1 hcontains with hroot | hold
        · exact ha (Path.compare_eq_iff.1 hroot).symm
        · exact hix hold
    | remove path =>
        simp only [Memory.remove, OrderedMap.contains, OrderedMap.get?_erase] at hix ⊢
        split
        · rfl
        · exact hix
    | _ => exact hix

theorem event_rootless (h : Event ix a ix') (haligned : ix.Aligned) (ha : a.Rootless)
    (hix : ix.Rootless) : ix'.Rootless := by
  have hfiles := event_rootless_files h ha hix.files
  rcases event_settings h haligned with ⟨c, config, project, request, rfl, asks, waits⟩ | hstay
  · have hasked : project.directory.isAbsolute = true ∧
        request.live.contains ⟨"/"⟩ = false := by
      cases asks with
      | initial => exact ha
      | parse _ established => exact ⟨hix.directory _ established, ha⟩
      | @setConfig _ project _ _ established last =>
          exact ⟨hix.directory project established, hix.live _ last⟩
    have hsettings := waits_settingsStay waits
    refine ⟨fun project' established => ?_, hfiles, fun request' last => ?_⟩
    · cases hsettings.project.symm.trans established
      exact hasked.1
    · cases hsettings.last.symm.trans last
      exact hasked.2
  · exact ⟨fun project established => hix.directory project (hstay.project ▸ established),
      hfiles, fun request last => hix.live request (hstay.last ▸ last)⟩

/-- Where no action of a run puts anything at the root, nothing is ever there. -/
theorem rootless_run (config : Config) {files : Memory} {actions : List Action}
    (hfiles : files.files.contains ⟨"/"⟩ = false) (h : ∀ a ∈ actions, a.Rootless) :
    ((new config files).run actions).Rootless := by
  induction actions using List.reverseRecOn with
  | nil =>
      rw [run_nil]
      exact ⟨by simp [new], hfiles, by simp [new]⟩
  | append_singleton before a ih =>
      rw [run_append]
      exact event_rootless (act_event _ a) (aligned_run config files before).1
        (h a (by simp)) (ih fun b hb => h b (by simp [hb]))

end Rootless

/-- In a run where projects are in absolute directories and nothing is ever stored or open at the
root, the files of the published index and the places where imports were found are absolute paths
in normal form. Each variant has the path and the symbols it is found under. A location has one
key, and imports that were found at one location under the same symbols lead to one variant,
however they are spelled. -/
theorem index_keys_canonical (config : Config) (files : Memory) (actions : List Action)
    (h : ∀ before, before <+: actions → ((new config files).run before).Rootless) :
    let index := ((new config files).run actions).snapshot.index
    (∀ p set, (p, set) ∈ index.files.entries →
        p.isAbsolute = true ∧ p.normal? = some p ∧
          (∀ p' set', (p', set') ∈ index.files.entries →
            p'.normalComponents = p.normalComponents →
            p' = p ∧ set' = set) ∧
          ∀ s v, (s, v) ∈ set.entries → v.path = p ∧ v.inSymbols = s) ∧
      (∀ v ∈ index.variants, ∀ r ∈ v.references, ∀ q, r.resolved = some q →
        q.isAbsolute = true ∧ q.normal? = some q ∧
          ∃ root : Path, root.isAbsolute = true ∧
            (root.join ⟨r.normalized⟩).normal? = some q) ∧
      ∀ v ∈ index.variants, ∀ v' ∈ index.variants, ∀ r ∈ v.references,
      ∀ r' ∈ v'.references,
        ∀ q q', r.resolved = some q → r'.resolved = some q' →
          q.normalComponents = q'.normalComponents →
          q = q' ∧ (r.active = r'.active → r.override = r'.override →
            index.follow r = index.follow r') := by
  intro index
  have hindex : index.Anchored := (anchored_run h).snapshot
  have hfiled := (filed_run config files actions).snapshot
  refine ⟨?_, ?_, ?_⟩
  · intro p set hp
    have hlocation : p.IsLocation := hindex.keys _ hp
    refine ⟨hlocation.1, hlocation.2, ?_, ?_⟩
    · intro p' set' hp' hsame
      obtain rfl := hlocation.eq_of_normalComponents (hindex.keys _ hp') hsame.symm
      have hset := OrderedMap.get?_of_mem_entries hp
      have hset' := OrderedMap.get?_of_mem_entries hp'
      exact ⟨rfl, Option.some.inj (hset'.symm.trans hset)⟩
    · intro s v hv
      have hget : index.get? p s = some v := Index.get?_of_mem_entries hp hv
      refine ⟨?_, (hfiled p s v hget).inSymbols⟩
      exact (hindex.variants p s v hget).1.eq_of_components hlocation (hfiled p s v hget).path
  · intro v hv r hr q hq
    have hanchored := hindex.references hv r hr
    have hlocation := hanchored.isLocation hq
    exact ⟨hlocation.1, hlocation.2, hanchored q hq⟩
  · intro v hv v' hv' r hr r' hr' q q' hq hq' hsame
    have hlocation := (hindex.references hv r hr).isLocation hq
    have hlocation' := (hindex.references hv' r' hr').isLocation hq'
    obtain rfl := hlocation.eq_of_normalComponents hlocation' hsame
    refine ⟨rfl, fun hactive hoverride => ?_⟩
    unfold Index.follow
    rw [hq, hq', hactive, hoverride]

/-- A file imports another by four names: up and down again, with backslashes, from the root, and
from a library directory. -/
def fourNames : List Action :=
  [.write ⟨"/lib/b.asm"⟩ "",
    .write ⟨"/p/main.asm"⟩
      ("#import \"../x/../lib/b.asm\"\n" ++ "#import \"..\\lib\\b.asm\"\n" ++
      "#import \"/lib/./b.asm\"\n" ++ "#import \"b.asm\"\n"),
    .call (.initial ⟨"/p/."⟩ { libraries := [⟨"../lib//"⟩] })] ++ List.replicate 20 .advance

theorem fourNames_rootless : ∀ a ∈ fourNames, a.Rootless := by
  intro a ha
  rcases List.mem_append.1 ha with ha | ha
  · simp only [List.mem_cons, List.not_mem_nil, or_false] at ha
    rcases ha with rfl | rfl | rfl
    · exact (by decide +kernel : (⟨"/lib/b.asm"⟩ : Path).components ≠ [.root])
    · exact (by decide +kernel : (⟨"/p/main.asm"⟩ : Path).components ≠ [.root])
    · exact ⟨by decide +kernel, rfl⟩
  · rw [List.eq_of_mem_replicate ha]
    trivial

/-- The four names lead to one variant. -/
theorem index_keys_canonical_four_names :
    ∃ v ∈ ((new {} {}).run fourNames).snapshot.index.variants,
      v.references.map (·.normalized) =
          ["../x/../lib/b.asm", "../lib/b.asm", "/lib/./b.asm", "b.asm"] ∧
        ∃ u, ∀ r ∈ v.references, r.resolved = some ⟨"/lib/b.asm"⟩ ∧
          ((new {} {}).run fourNames).snapshot.index.follow r = some u := by
  have hevaluated : (((new {} {}).run fourNames).snapshot.index.variants.any fun v =>
      v.references.map (·.normalized) ==
          ["../x/../lib/b.asm", "../lib/b.asm", "/lib/./b.asm", "b.asm"] &&
        v.references.all (fun r =>
          r.resolved == some ⟨"/lib/b.asm"⟩ && r.active == Symbols.empty &&
          r.override.isNone) &&
        v.references.head?.any fun r =>
          (((new {} {}).run fourNames).snapshot.index.follow r).isSome) = true := by
    decide +kernel
  simp only [List.any_eq_true, Bool.and_eq_true, beq_iff_eq, List.all_eq_true, Option.any_eq_true,
    Option.isNone_iff_eq_none, Option.isSome_iff_exists] at hevaluated
  obtain ⟨v, hv, ⟨hnames, hfound⟩, r₀, hhead, u, hu⟩ := hevaluated
  have hr₀ : r₀ ∈ v.references := List.mem_of_head? hhead
  have hlaw := index_keys_canonical {} {} fourNames fun before hbefore =>
    rootless_run {} rfl fun a ha => fourNames_rootless a (hbefore.subset ha)
  refine ⟨v, hv, hnames, u, fun r hr => ⟨(hfound r hr).1.1, ?_⟩⟩
  have hshared :=
    hlaw.2.2 v hv v hv r hr r₀ hr₀ _ _ (hfound r hr).1.1 (hfound r₀ hr₀).1.1 rfl
  rw [hshared.2 ((hfound r hr).1.2.trans (hfound r₀ hr₀).1.2.symm)
    ((hfound r hr).2.trans (hfound r₀ hr₀).2.symm)]
  exact hu

end Indexer

end AsmIndex

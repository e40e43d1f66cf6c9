import AsmIndex.Proofs.Freshness

/-!
A walk and the same walk from scratch. Where one walk takes over a variant of the previous index,
the other one reads the file and makes the variant anew. Both go through the same files in the
same order; the variants of a file that is open may differ in what is known of its imports, and
those of a file that is closed agree in all but their identity.
-/

namespace AsmIndex

theorem Reference.eq_of_same {r s : Reference} (h : r.same s = true) (hr : r.Canonical)
    (hs : s.Canonical) : r = s := by
  obtain ⟨line, column, raw, active, resolved, override⟩ := r
  obtain ⟨line', column', raw', active', resolved', override'⟩ := s
  simp only [same, Bool.and_eq_true, beq_iff_eq] at h
  obtain ⟨⟨⟨⟨⟨rfl, rfl⟩, rfl⟩, rfl⟩, rfl⟩, hresolved⟩ := h
  cases resolved with
  | none => cases resolved' <;> simp_all
  | some p =>
      cases resolved' with
      | none => simp at hresolved
      | some q =>
          have hpq : p = q :=
            (hr p rfl).eq_of_components (hs q rfl) (by simpa [Path.same] using hresolved)
          rw [hpq]

theorem Reference.same_self (r : Reference) : r.same r = true := by
  cases hresolved : r.resolved <;> simp [same, hresolved, Path.same]

namespace Variant

theorem sameReferences_self (rs : List Reference) : sameReferences rs rs = true := by
  induction rs with
  | nil => rfl
  | cons r rs ih => simp [sameReferences, Reference.same_self, ih]

theorem eq_of_sameReferences {rs ss : List Reference} (h : sameReferences rs ss = true)
    (hr : ∀ r ∈ rs, r.Canonical) (hs : ∀ r ∈ ss, r.Canonical) : rs = ss := by
  induction rs generalizing ss with
  | nil => cases ss <;> simp_all [sameReferences]
  | cons r rs ih =>
      cases ss with
      | nil => simp [sameReferences] at h
      | cons s ss =>
          simp only [sameReferences, Bool.and_eq_true] at h
          simp only [List.mem_cons, forall_eq_or_imp] at hr hs
          rw [Reference.eq_of_same h.1 hr.1 hs.1, ih h.2 hr.2 hs.2]

/-- Two variants are of the same text in the same way, whatever is known of their imports. -/
structure Akin (v v' : Variant) : Prop where
  path : v.path.components = v'.path.components
  relativePath : v.relativePath.components = v'.relativePath.components
  tokens : v.tokens = v'.tokens
  unresolved : v.references.map Reference.unresolved = v'.references.map Reference.unresolved
  inSymbols : v.inSymbols = v'.inSymbols
  outSymbols : v.outSymbols = v'.outSymbols
  modified : v.modified = v'.modified
  liveContent : v.liveContent = v'.liveContent
  importOnce : v.importOnce = v'.importOnce
  diagnostics : v.diagnostics = v'.diagnostics

/-- Two variants agree in all but their identity, their paths being compared by components. -/
structure Agrees (v v' : Variant) : Prop extends Akin v v' where
  references : v.references = v'.references
  resolutionDiagnostics : v.resolutionDiagnostics = v'.resolutionDiagnostics

theorem Akin.withReferences {v v' : Variant} (h : v.Akin v') (id id' : VariantId)
    (references : List Reference) (problems : List Diagnostic) :
    (v.withReferences id references problems).Agrees
      (v'.withReferences id' references problems) where
  path := h.path
  relativePath := h.relativePath
  tokens := h.tokens
  unresolved := rfl
  inSymbols := h.inSymbols
  outSymbols := h.outSymbols
  modified := h.modified
  liveContent := h.liveContent
  importOnce := h.importOnce
  diagnostics := h.diagnostics
  references := rfl
  resolutionDiagnostics := rfl

/-- A variant is where it belongs: it has the path of its file, also below the directory of the
project; if it is of a stored file, then of one whose reads do not fail; and its imports were
found under normal forms. -/
structure Settled (failing : OrderedMap Path Unit) (directory p : Path) (v : Variant) : Prop where
  path : v.path.components = p.components
  relativePath : v.relativePath = v.path.relativeTo directory
  readable : v.liveContent = none → failing.contains p = false
  canonical : ∀ r ∈ v.references, r.Canonical

/-- A variant of a text is akin to the one made of the same text in another pass. -/
theorem ScanOf.akin {v : Variant} {text : String} {s : Symbols} (hscan : v.ScanOf text s)
    {plan : Plan} {p : Path} {time : Nat} {live : Option String} (serial : Nat)
    (hpath : v.path.components = p.components)
    (hrelative : v.relativePath = v.path.relativeTo plan.directory) (htime : v.modified = time)
    (hlive : v.liveContent = live) :
    v.Akin (Walk.variantOf plan serial p s text time live) where
  path := hpath
  relativePath := by
    rw [hrelative]
    simp only [Walk.variantOf, Path.components_relativeTo, hpath]
  tokens := hscan.tokens
  unresolved := hscan.references.trans (Source.map_unresolved_scan text s).symm
  inSymbols := hscan.inSymbols
  outSymbols := hscan.outSymbols
  modified := htime
  liveContent := hlive
  importOnce := hscan.importOnce
  diagnostics := hscan.diagnostics

end Variant

/-- Two indexes have the same keys, with variants that agree. -/
structure Index.Agrees (index index' : Index) : Prop where
  contains : ∀ p s, index'.contains p s = index.contains p s
  variants : ∀ p s v v', index.get? p s = some v → index'.get? p s = some v' → v.Agrees v'

/-- Two plans differ at most in their numbers and in the indexes that they start from. -/
structure Plan.Alike (plan plan' : Plan) : Prop where
  directory : plan'.directory = plan.directory
  libraries : plan'.libraries = plan.libraries
  severity : plan'.severity = plan.severity
  live : plan'.live = plan.live

/-- The same plan without a previous index. -/
structure Plan.Afresh (plan plan' : Plan) : Prop where
  directory : plan'.directory = plan.directory
  libraries : plan'.libraries = plan.libraries
  severity : plan'.severity = plan.severity
  live : plan'.live = plan.live
  previous : ∀ p s, plan'.previous.get? p s = none

theorem Plan.Afresh.alike {plan plan' : Plan} (h : plan.Afresh plan') : plan.Alike plan' :=
  ⟨h.directory, h.libraries, h.severity, h.live⟩

/-- What a pass may take over is fresh and where it belongs. -/
def Plan.Trusts (plan : Plan) (m : Memory) : Prop :=
  ∀ p s v, plan.previous.get? p s = some v →
    v.Fresh m p s ∧ v.Settled m.failing plan.directory p

/-- The variant that a text makes says nothing of where its imports are. -/
theorem Variant.resolved_variantOf {plan : Plan} {serial : Nat} {p : Path} {s : Symbols}
    {text : String} {time : Nat} {live : Option String} {r : Reference}
    (hr : r ∈ (Walk.variantOf plan serial p s text time live).references) :
    r.resolved = none := by
  change r ∈ (Source.scan text s).findings.references at hr
  rw [← Source.map_unresolved_scan] at hr
  obtain ⟨r', _, rfl⟩ := List.mem_map.1 hr
  rfl

theorem Variant.canonical_variantOf (plan : Plan) (serial : Nat) (p : Path) (s : Symbols)
    (text : String) (time : Nat) (live : Option String) :
    ∀ r ∈ (Walk.variantOf plan serial p s text time live).references, r.Canonical := by
  intro r hr q hq
  cases (resolved_variantOf hr).symm.trans hq

/-- What walks take over and make is where it belongs. -/
theorem upholds_settled {plan : Plan} {m : Memory}
    (hprevious : ∀ p s v, plan.previous.get? p s = some v →
      v.Settled m.failing plan.directory p) :
    Walk.Upholds plan m.view (fun _ _ _ => True)
      (fun p _ v => v.Settled m.failing plan.directory p) where
  congr := by
    intro p q s v hq hv
    refine ⟨hv.path.trans hq.symm, hv.relativePath, ?_, hv.canonical⟩
    rw [OrderedMap.contains_congr (Path.compare_eq_iff.2 hq)]
    exact hv.readable
  reuseLive := fun _ hold _ => hprevious _ _ _ hold
  scanLive := by
    intro p s buffer serial _
    exact ⟨rfl, rfl, by rintro ⟨⟩, Variant.canonical_variantOf _ _ _ _ _ _ _⟩
  reuseStored := fun _ _ hold _ => hprevious _ _ _ hold
  dated := fun _ _ => trivial
  scanStored := fun _ _ _ hread =>
    ⟨rfl, rfl, fun _ => (Memory.read_eq_ok.1 hread).1,
      Variant.canonical_variantOf _ _ _ _ _ _ _⟩
  replace := by
    intro f id htracks _ hv
    exact ⟨hv.path, hv.relativePath, hv.readable, fun r hr =>
      htracks.canonical r (List.mem_append_left _ hr)⟩

namespace Walk

/-- What walks take over and make has its imports under normal forms. -/
theorem upholds_canonical {plan : Plan} {view : FileView}
    (hprevious : ∀ p s v, plan.previous.get? p s = some v →
      ∀ r ∈ v.references, r.Canonical) :
    Upholds plan view (fun _ _ _ => True) (fun _ _ v => ∀ r ∈ v.references, r.Canonical) where
  congr := fun _ hv => hv
  reuseLive := fun _ hold _ => hprevious _ _ _ hold
  scanLive := fun _ _ => Variant.canonical_variantOf _ _ _ _ _ _ _
  reuseStored := fun _ _ hold _ => hprevious _ _ _ hold
  dated := fun _ _ => trivial
  scanStored := fun _ _ _ _ => Variant.canonical_variantOf _ _ _ _ _ _ _
  replace := fun _ htracks _ _ r hr => htracks.canonical r (List.mem_append_left _ hr)

/-- Two frames are of the same file under the same symbols and have come equally far. -/
structure Frame.Akin (f f' : Frame) : Prop where
  path : f.path = f'.path
  symbols : f.symbols = f'.symbols
  variant : f.variant.Akin f'.variant
  pending : f.pending.map Reference.unresolved = f'.pending.map Reference.unresolved
  followed : f.followed = f'.followed
  problems : f.problems = f'.problems

theorem Frame.Akin.add {f f' : Frame} (h : f.Akin f') (r : Reference)
    (problem : Option Diagnostic) : (f.add r problem).Akin (f'.add r problem) where
  path := h.path
  symbols := h.symbols
  variant := h.variant
  pending := h.pending
  followed := by simp [Frame.add, h.followed]
  problems := by simp [Frame.add, h.problems]

/-- Two walks are at the same point. -/
inductive Stage.Akin : Stage → Stage → Prop
  | enter (p : Path) (s : Symbols) : Akin (.enter p s) (.enter p s)
  | stamp (p : Path) (s : Symbols) : Akin (.stamp p s) (.stamp p s)
  | read (p : Path) (s : Symbols) (t : Nat) : Akin (.read p s t) (.read p s t)
  | follow {f f' : Frame} (h : f.Akin f') : Akin (.follow f) (.follow f')
  | probe {f f' : Frame} (h : f.Akin f') (r : Reference) (candidates : List Path) :
      Akin (.probe f r candidates) (.probe f' r candidates)
  | leave (failure : Option FileError) : Akin (.leave failure) (.leave failure)
  | ended (ending : Ending) : Akin (.ended ending) (.ended ending)

/-- Two walks have gone through the same files in the same way. -/
structure Matches (w w' : Walk) : Prop where
  stack : List.Forall₂ (fun x x' => x.1.Akin x'.1 ∧ x.2 = x'.2) w.stack w'.stack
  once : ∀ p, (w.once.get? p).map OnceEntry.symbols = (w'.once.get? p).map OnceEntry.symbols
  keys : ∀ p s, w'.index.contains p s = w.index.contains p s
  variants : ∀ p s v v', w.index.get? p s = some v → w'.index.get? p s = some v' →
    v.Akin v' ∧ (w.IsOpen p s ∨ v.Agrees v')

/-- Two walks have gone through the same files and are at the same point. -/
structure Mirrors (w w' : Walk) : Prop extends Matches w w' where
  stage : w.stage.Akin w'.stage

section Mirrors

variable {plan plan' : Plan} {m : Memory} {w w' a a' : Walk}

theorem mirrors_start (entry : Path) (symbols : Symbols) :
    (start entry symbols).Mirrors (start entry symbols) where
  stage := .enter entry symbols
  stack := .nil
  once := fun _ => rfl
  keys := fun _ _ => rfl
  variants := by
    intro p s v v' hv
    simp [start] at hv

theorem Matches.once_contains (h : w.Matches w') (p : Path) :
    w'.once.contains p = w.once.contains p := by
  have honce := congrArg Option.isSome (h.once p)
  simpa [OrderedMap.contains] using honce.symm

theorem Matches.redirected_eq (h : w.Matches w') (r : Reference) (target : Path) :
    w'.redirected r target = w.redirected r target := by
  have honce := h.once target
  unfold redirected
  cases hw : w.once.get? target with
  | none =>
      rw [hw] at honce
      rw [Option.map_eq_none_iff.1 honce.symm]
  | some e =>
      rw [hw] at honce
      obtain ⟨e', he', hsymbols⟩ := Option.map_eq_some_iff.1 honce.symm
      simp [he', hsymbols]

/-- The keys of the open files. -/
def openKeys (w : Walk) : List (Path × Symbols) :=
  w.opened.map fun x => (x.1.path, x.1.symbols)

theorem isOpen_iff {p : Path} {s : Symbols} :
    w.IsOpen p s ↔ ∃ q, (q, s) ∈ w.openKeys ∧ q.components = p.components := by
  constructor
  · rintro ⟨x, hx, hpath, rfl⟩
    exact ⟨x.1.path, List.mem_map.2 ⟨x, hx, rfl⟩, hpath⟩
  · rintro ⟨q, hq, hpath⟩
    obtain ⟨x, hx, hkey⟩ := List.mem_map.1 hq
    cases hkey
    exact ⟨x, hx, hpath, rfl⟩

/-- Both walks go on without a change of their indexes, and no file is closed. -/
theorem Matches.go (h : w.Matches w') (hstage : a.stage.Akin a'.stage)
    (hstack : List.Forall₂ (fun x x' => x.1.Akin x'.1 ∧ x.2 = x'.2) a.stack a'.stack)
    (hopen : a.openKeys = w.openKeys) (hindex : a.index = w.index)
    (hindex' : a'.index = w'.index) (honce : a.once = w.once) (honce' : a'.once = w'.once) :
    a.Mirrors a' where
  stage := hstage
  stack := hstack
  once := by
    rw [honce, honce']
    exact h.once
  keys := by
    rw [hindex, hindex']
    exact h.keys
  variants := by
    intro p s v v' hv hv'
    rw [hindex] at hv
    rw [hindex'] at hv'
    obtain ⟨hakin, hopened | hagrees⟩ := h.variants p s v v' hv hv'
    · exact ⟨hakin, .inl (isOpen_iff.2 (hopen ▸ isOpen_iff.1 hopened))⟩
    · exact ⟨hakin, .inr hagrees⟩

/-- Both walks register a new file. -/
theorem Matches.register (h : w.Matches w') {p : Path} {s : Symbols} {v v' : Variant}
    (hakin : v.Akin v') (hopened : w.opened = w.stack.map fun x => (x.1, [x.2])) :
    (w.register p s v).Mirrors (w'.register p s v') where
  stage := .follow ⟨rfl, rfl, hakin, hakin.unresolved, rfl, rfl⟩
  stack := h.stack
  once := by
    intro q
    have hcontains := h.once_contains p
    simp only [Walk.register, OnceTable.register, ← hakin.importOnce, hcontains]
    split
    · split
      · exact h.once q
      · simp only [OrderedMap.get?_insert]
        split
        · simp [hakin.outSymbols]
        · exact h.once q
    · exact h.once q
  keys := by
    intro q t
    rw [Bool.eq_iff_iff]
    simp only [Walk.register, Index.contains_insert, h.keys]
  variants := by
    intro q t u u' hu hu'
    simp only [Walk.register, Index.get?_insert] at hu hu'
    split at hu
    · rename_i hkey
      rw [if_pos hkey] at hu'
      cases hu
      cases hu'
      exact ⟨hakin, .inl ⟨(⟨p, s, v, v.references, [], []⟩, []), List.mem_cons_self,
        hkey.1.symm, hkey.2.symm⟩⟩
    · rename_i hkey
      rw [if_neg hkey] at hu'
      obtain ⟨hold, ⟨x, hx, hx'⟩ | hagrees⟩ := h.variants q t u u' hu hu'
      · rw [hopened] at hx
        exact ⟨hold, .inl ⟨x, List.mem_cons_of_mem _ hx, hx'⟩⟩
      · exact ⟨hold, .inr hagrees⟩

/-- What the index holds once the imports of a file have been followed. -/
theorem finish_get? {f : Frame} (htracks : f.Tracks [])
    (hcanonical : ∀ r ∈ f.variant.references,
    r.Canonical) (hheld : w.index.get? f.path f.symbols = some f.variant) :
    ∃ id, ∀ q t, (w.finish plan f).index.get? q t =
      if q.components = f.path.components ∧ t = f.symbols then
        some (f.variant.withReferences id f.followed f.problems)
      else w.index.get? q t := by
  unfold finish
  dsimp only
  split
  · rename_i hsame
    simp only [Bool.and_eq_true, beq_iff_eq] at hsame
    have hreferences : f.followed = f.variant.references := by
      refine Variant.eq_of_sameReferences hsame.1 ?_ hcanonical
      intro r hr
      exact htracks.canonical r (by simpa using hr)
    refine ⟨f.variant.id, fun q t => ?_⟩
    have hvariant : f.variant.withReferences f.variant.id f.followed f.problems = f.variant := by
      rw [hreferences, hsame.2]
      rfl
    split
    · rename_i hkey
      rw [hvariant, hkey.2, Index.get?_congr hkey.1, hheld]
    · rfl
  · exact ⟨⟨plan.pass, w.made⟩, fun q t => Index.get?_insert _ _ _ _ _ _⟩

@[simp] theorem finish_stage (w : Walk) (f : Frame) : (w.finish plan f).stage = .leave none := by
  unfold finish
  dsimp only
  split <;> rfl

@[simp] theorem finish_stack (w : Walk) (f : Frame) : (w.finish plan f).stack = w.stack := by
  unfold finish
  dsimp only
  split <;> rfl

@[simp] theorem finish_once (w : Walk) (f : Frame) : (w.finish plan f).once = w.once := by
  unfold finish
  dsimp only
  split <;> rfl

/-- The imports of all variants of the walk were found under normal forms. -/
def Canonical (w : Walk) : Prop :=
  ∀ p s v, w.index.get? p s = some v → ∀ r ∈ v.references, r.Canonical

/-- Imports that agree with those that a variant has are equal to them, all being found under normal
forms. -/
theorem Coherent.followed_eq (h : w.Coherent plan) (hcanonical : w.Canonical) {f : Frame}
    (stage : w.stage = .follow f)
    (hsame : Variant.sameReferences f.followed f.variant.references = true) :
    f.followed = f.variant.references := by
  have hopened := opened_follow stage
  have hheld := h.held (f, []) (by simp [hopened])
  refine Variant.eq_of_sameReferences hsame (fun r hr => ?_) (hcanonical _ _ _ hheld)
  exact (h.innermost hopened).canonical r (by simpa using hr)

theorem Coherent.finish_get? (h : w.Coherent plan) (hcanonical : w.Canonical) {f : Frame}
    (stage : w.stage = .follow f) :
    ∃ id, ∀ q t, (w.finish plan f).index.get? q t =
      if q.components = f.path.components ∧ t = f.symbols then
        some (f.variant.withReferences id f.followed f.problems)
      else w.index.get? q t := by
  have hopened := opened_follow stage
  have hheld := h.held (f, []) (by simp [hopened])
  exact Walk.finish_get? (h.innermost hopened) (hcanonical _ _ _ hheld) hheld

/-- Both walks are done with the imports of a file, which then agrees. -/
theorem Matches.finish (h : w.Matches w') (hw : w.Coherent plan) (hw' : w'.Coherent plan')
    (hcanonical : w.Canonical) (hcanonical' : w'.Canonical) {f f' : Frame}
    (stage : w.stage = .follow f) (stage' : w'.stage = .follow f') (hakin : f.Akin f') :
    (w.finish plan f).Mirrors (w'.finish plan' f') := by
  obtain ⟨id, hget⟩ := hw.finish_get? hcanonical stage
  obtain ⟨id', hget'⟩ := hw'.finish_get? hcanonical' stage'
  rw [← hakin.path, ← hakin.symbols, ← hakin.followed, ← hakin.problems] at hget'
  refine ⟨⟨?_, ?_, ?_, ?_⟩, by simpa using .leave none⟩
  · rw [finish_stack, finish_stack]
    exact h.stack
  · rw [finish_once, finish_once]
    exact h.once
  · intro q t
    have hkeys := h.keys q t
    simp only [Index.contains, hget, hget'] at hkeys ⊢
    split
    · rfl
    · exact hkeys
  · intro q t v v' hv hv'
    rw [hget] at hv
    rw [hget'] at hv'
    split at hv
    · rename_i hkey
      rw [if_pos hkey] at hv'
      cases hv
      cases hv'
      have hagrees := hakin.variant.withReferences id id' f.followed f.problems
      exact ⟨hagrees.toAkin, .inr hagrees⟩
    · rename_i hkey
      rw [if_neg hkey] at hv'
      obtain ⟨hold, ⟨x, hx, hpath, hsymbols⟩ | hagrees⟩ := h.variants q t v v' hv hv'
      · rw [opened_follow stage, List.mem_cons] at hx
        rcases hx with rfl | hx
        · exact absurd ⟨hpath.symm, hsymbols.symm⟩ hkey
        · refine ⟨hold, .inl ⟨x, ?_, hpath, hsymbols⟩⟩
          simpa [opened] using hx
      · exact ⟨hold, .inr hagrees⟩

/-- With no file being followed, the two walks are at one and the same stage. -/
theorem Mirrors.stage_eq (h : w.Mirrors w') {stage : Stage} (hw : w.stage = stage)
    (hopened : w.opened = w.stack.map fun x => (x.1, [x.2])) : w'.stage = stage := by
  have hstage := h.stage
  simp only [opened, hw] at hstage hopened
  generalize w'.stage = stage' at hstage ⊢
  cases hstage <;> first | rfl | simp at hopened

theorem Mirrors.follow (h : w.Mirrors w') {f : Frame} (stage : w.stage = .follow f) :
    ∃ f', w'.stage = .follow f' ∧ f.Akin f' := by
  have hstage := stage ▸ h.stage
  generalize w'.stage = stage' at hstage ⊢
  cases hstage with
  | follow hakin => exact ⟨_, rfl, hakin⟩

theorem Mirrors.probe (h : w.Mirrors w') {f : Frame} {r : Reference} {candidates : List Path}
    (stage : w.stage = .probe f r candidates) :
    ∃ f', w'.stage = .probe f' r candidates ∧ f.Akin f' := by
  have hstage := stage ▸ h.stage
  generalize w'.stage = stage' at hstage ⊢
  cases hstage with
  | probe hakin => exact ⟨_, rfl, hakin⟩

/-- What walks count does not matter. -/
theorem Mirrors.recount (h : a.Mirrors a') {reused tokenized made reused' tokenized' made' : Nat} :
    { a with reused, tokenized, made }.Mirrors
      { a' with reused := reused', tokenized := tokenized', made := made' } :=
  ⟨⟨h.stack, h.once, h.keys, h.variants⟩, h.stage⟩

theorem Mirrors.step {view : FileView} (going : w'.ending? = none)
    (h : a.Mirrors (w'.step plan' view false)) : ∃ n, a.Mirrors (w'.run plan' view n) := by
  refine ⟨1, ?_⟩
  rw [run_of_going going, run]
  exact h

theorem Mirrors.after {view : FileView} (hmove : Move plan' view false w' a')
    (going : w'.ending? = none) (h : a.Mirrors a') : ∃ n, a.Mirrors (w'.run plan' view n) :=
  Mirrors.step going (hmove.step_eq ▸ h)

/-- Where one walk takes over or makes a variant of a live buffer, the other one makes it. -/
theorem Mirrors.live (h : w.Mirrors w') (hplan : plan.Afresh plan') {p : Path} {s : Symbols}
    {buffer : LiveBuffer} {v : Variant} {view : FileView} (stage : w.stage = .enter p s)
    (new : w.index.contains p s = false) (live : plan.live.get? p = some buffer)
    (hscan : v.ScanOf buffer.content s) (hpath : v.path.components = p.components)
    (hrelative : v.relativePath = v.path.relativeTo plan.directory)
    (hbuffer : v.FromBuffer buffer) :
    (w.register p s v).Mirrors (w'.step plan' view false) := by
  have stage' := h.stage_eq stage (by simp [opened, stage])
  have hmove : Move plan' view false w' _ :=
    .scanLive stage' (by rw [h.keys, new]) (by rw [hplan.live, live])
      (fun u hu => by simp [hplan.previous] at hu)
  rw [hmove.step_eq]
  have hakin := hscan.akin w'.made hpath (hplan.directory ▸ hrelative) hbuffer.2 hbuffer.1
  have hregister := h.toMatches.register hakin (p := p) (s := s) (by simp [opened, stage])
  exact hregister.recount

/-- Where one walk takes over or makes a variant of a stored file, the other one makes it once it
has read the file. -/
theorem Matches.stored (h : w.Matches w') (hplan : plan.Afresh plan') {p : Path} {s : Symbols}
    {time : Nat} {text : String} {v : Variant} {view : FileView}
    (hopened : w.opened = w.stack.map fun x => (x.1, [x.2]))
    (stage' : w'.stage = .read p s time) (answer : view.read p = .ok text)
    (hscan : v.ScanOf text s) (hpath : v.path.components = p.components)
    (hrelative : v.relativePath = v.path.relativeTo plan.directory) (hstored : v.FromStored time) :
    (w.register p s v).Mirrors (w'.step plan' view false) := by
  have hmove : Move plan' view false w' _ := .scanStored stage' answer
  rw [hmove.step_eq]
  have hakin := hscan.akin w'.made hpath (hplan.directory ▸ hrelative) hstored.2 hstored.1
  have hregister := h.register hakin (p := p) (s := s) hopened
  exact hregister.recount

/-- Where one walk takes over a stored variant, the other one takes two steps: it asks for the
text of the file and makes the variant. -/
theorem Mirrors.reuseStored (hm : w.Mirrors w') (hplan : plan.Afresh plan')
    (htrusts : plan.Trusts m) {p : Path} {s : Symbols} {v : Variant} {time : Nat}
    (stage : w.stage = .stamp p s) (answer : m.view.modified p = .ok time)
    (previous : plan.previous.get? p s = some v) (same : v.FromStored time) :
    ∃ n, (w.reuse p s v).Mirrors (w'.run plan' m.view n) := by
  have stage' := hm.stage_eq stage (by simp [opened, stage])
  obtain ⟨hfresh, hsettled⟩ := htrusts p s v previous
  obtain ⟨f, hf, rfl⟩ := Memory.modified_eq_ok.1 answer
  have hread := Memory.read_eq_ok.2 ⟨hsettled.readable same.1, f, hf, rfl⟩
  have hmove : Move plan' m.view false w' _ :=
    .askText stage' answer (fun u hu => by simp [hplan.previous] at hu)
  have hmatches : w.Matches { w' with stage := .read p s f.modified } :=
    ⟨hm.stack, hm.once, hm.keys, hm.variants⟩
  have h := hmatches.stored hplan (by simp [opened, stage]) rfl hread
    (hfresh.of_stored hf same) hsettled.path hsettled.relativePath same
  refine ⟨2, ?_⟩
  rw [run_of_going (by simp [ending?, stage']), hmove.step_eq, run_of_going rfl, run]
  exact h.recount

/-- Both walks come to the same next import of a file. -/
theorem Mirrors.look (hm : w.Mirrors w') (hplan : plan.Alike plan') {f : Frame} {r : Reference}
    {pending : List Reference} {view : FileView} (stage : w.stage = .follow f)
    (more : f.pending = r :: pending) :
    ∃ n, { w with
      stage := .probe { f with pending } r.unresolved
        (r.unresolved.candidates f.path.directory plan.libraries) }.Mirrors
      (w'.run plan' view n) := by
  obtain ⟨f', stage', hakin⟩ := hm.follow stage
  have hpending := hakin.pending
  rw [more, List.map_cons] at hpending
  obtain ⟨r', pending', more', hr, hrest⟩ := List.map_eq_cons_iff.1 hpending.symm
  have hmove : Move plan' view false w' _ := .look stage' more'
  refine Mirrors.after hmove (by simp [ending?, stage']) ?_
  rw [hr, ← hakin.path, hplan.libraries]
  refine hm.go (.probe ?_ _ _) hm.stack ?_ rfl rfl rfl rfl
  · exact ⟨rfl, hakin.symbols, hakin.variant, hrest.symm, hakin.followed, hakin.problems⟩
  · simp [openKeys, opened, stage]

/-- Both walks come back to the file whose import they followed. -/
theorem Mirrors.back (hm : w.Mirrors w') {failure : Option FileError} {f : Frame} {r : Reference}
    {stack : List (Frame × Reference)} {view : FileView} (stage : w.stage = .leave failure)
    (inner : w.stack = (f, r) :: stack) :
    ∃ n, (w.leave failure).Mirrors (w'.run plan' view n) := by
  have stage' := hm.stage_eq stage (by simp [opened, stage])
  have hstack := hm.stack
  rw [inner] at hstack
  obtain ⟨⟨f', r'⟩, stack', ⟨hakin, rfl⟩, hrest, inner'⟩ :=
    List.forall₂_cons_left_iff.1 hstack
  have hmove : Move plan' view false w' _ := .back stage' inner'
  refine Mirrors.after hmove (by simp [ending?, stage']) ?_
  simp only [Walk.leave, inner, inner', hm.redirected_eq]
  exact hm.go (.follow (hakin.add _ _)) hrest
    (by simp [openKeys, opened, stage, inner, Frame.add]) rfl rfl rfl rfl

/-- Where one walk is done with the imports of a file, so is the other one. -/
theorem Mirrors.followed (hm : w.Mirrors w') (hw : w.Coherent plan) (hw' : w'.Coherent plan')
    (hcanonical : w.Canonical) (hcanonical' : w'.Canonical) {f : Frame} {view : FileView}
    (stage : w.stage = .follow f) (done : f.pending = []) :
    ∃ n, (w.finish plan f).Mirrors (w'.run plan' view n) := by
  obtain ⟨f', stage', hakin⟩ := hm.follow stage
  have done' : f'.pending = [] := by
    have hpending := hakin.pending
    rw [done, List.map_nil] at hpending
    exact List.map_eq_nil_iff.1 hpending.symm
  refine Mirrors.step (by simp [ending?, stage']) ?_
  have hstep : w'.step plan' view false = w'.finish plan' f' := by
    simp [Walk.step, stage', done']
  rw [hstep]
  exact hm.toMatches.finish hw hw' hcanonical hcanonical' stage stage' hakin

/-- The moves on which a walk gets hold of a file, or asks for its text: what it does depends on the
previous index. -/
inductive Fetches (plan : Plan) (view : FileView) (w : Walk) : Walk → Prop
  | reuseLive {p s buffer v} (stage : w.stage = .enter p s) (new : w.index.contains p s = false)
      (live : plan.live.get? p = some buffer) (previous : plan.previous.get? p s = some v)
      (same : v.FromBuffer buffer) : Fetches plan view w (w.reuse p s v)
  | scanLive {p s buffer} (stage : w.stage = .enter p s) (new : w.index.contains p s = false)
      (live : plan.live.get? p = some buffer)
      (changed : ∀ v, plan.previous.get? p s = some v → ¬ v.FromBuffer buffer) :
      Fetches plan view w (w.tokenize plan p s buffer.content buffer.time (some buffer.content))
  | reuseStored {p s time v} (stage : w.stage = .stamp p s) (answer : view.modified p = .ok time)
      (previous : plan.previous.get? p s = some v) (same : v.FromStored time) :
      Fetches plan view w (w.reuse p s v)
  | askText {p s time} (stage : w.stage = .stamp p s) (answer : view.modified p = .ok time)
      (changed : ∀ v, plan.previous.get? p s = some v → ¬ v.FromStored time) :
      Fetches plan view w { w with stage := .read p s time }
  | scanStored {p s time text} (stage : w.stage = .read p s time)
      (answer : view.read p = .ok text) : Fetches plan view w (w.tokenize plan p s text time none)

/-- A walk with a plan alike follows each move that does not depend on the previous index. -/
theorem Mirrors.fetches_or {view : FileView} (hplan : plan.Alike plan')
    (h : Move plan view false w a) (hw : w.Coherent plan) (hw' : w'.Coherent plan')
    (hcanonical : w.Canonical) (hcanonical' : w'.Canonical) (hm : w.Mirrors w') :
    Fetches plan view w a ∨ ∃ n, a.Mirrors (w'.run plan' view n) := by
  cases h with
  | quitEnter _ quit => cases quit
  | quitFollow _ _ quit => cases quit
  | reuseLive stage new live previous same => exact .inl (.reuseLive stage new live previous same)
  | scanLive stage new live changed => exact .inl (.scanLive stage new live changed)
  | reuseStored stage answer previous same =>
      exact .inl (.reuseStored stage answer previous same)
  | askText stage answer changed => exact .inl (.askText stage answer changed)
  | scanStored stage answer => exact .inl (.scanStored stage answer)
  | known stage old =>
      have stage' := hm.stage_eq stage (by simp [opened, stage])
      have hmove : Move plan' view false w' _ := .known stage' (by rw [hm.keys, old])
      refine .inr (Mirrors.after hmove (by simp [ending?, stage']) ?_)
      exact hm.go (.leave none) hm.stack (by simp [openKeys, opened, stage]) rfl rfl rfl rfl
  | askTime stage new stored =>
      have stage' := hm.stage_eq stage (by simp [opened, stage])
      have hmove : Move plan' view false w' _ :=
        .askTime stage' (by rw [hm.keys, new]) (by rw [hplan.live, stored])
      refine .inr (Mirrors.after hmove (by simp [ending?, stage']) ?_)
      exact hm.go (.stamp _ _) hm.stack (by simp [openKeys, opened, stage]) rfl rfl rfl rfl
  | noTime stage answer =>
      have stage' := hm.stage_eq stage (by simp [opened, stage])
      have hmove : Move plan' view false w' _ := .noTime stage' answer
      refine .inr (Mirrors.after hmove (by simp [ending?, stage']) ?_)
      exact hm.go (.leave _) hm.stack (by simp [openKeys, opened, stage]) rfl rfl rfl rfl
  | noText stage answer =>
      have stage' := hm.stage_eq stage (by simp [opened, stage])
      have hmove : Move plan' view false w' _ := .noText stage' answer
      refine .inr (Mirrors.after hmove (by simp [ending?, stage']) ?_)
      exact hm.go (.leave _) hm.stack (by simp [openKeys, opened, stage]) rfl rfl rfl rfl
  | look stage more => exact .inr (hm.look hplan stage more)
  | skip stage absent =>
      obtain ⟨f', stage', hakin⟩ := hm.probe stage
      have hmove : Move plan' view false w' _ := .skip stage' absent
      refine .inr (Mirrors.after hmove (by simp [ending?, stage']) ?_)
      exact hm.go (.probe hakin _ _) hm.stack (by simp [openKeys, opened, stage])
        rfl rfl rfl rfl
  | missing stage =>
      obtain ⟨f', stage', hakin⟩ := hm.probe stage
      have hmove : Move plan' view false w' _ := .missing stage'
      refine .inr (Mirrors.after hmove (by simp [ending?, stage']) ?_)
      simp only [missing, hplan.severity]
      exact hm.go (.follow (hakin.add _ _)) hm.stack
        (by simp [openKeys, opened, stage, Frame.add]) rfl rfl rfl rfl
  | @meet f r path rest stage found old =>
      obtain ⟨f', stage', hakin⟩ := hm.probe stage
      have hmove : Move plan' view false w' _ :=
        .meet stage' found (by rw [hm.once_contains, hm.keys]; exact old)
      refine .inr (Mirrors.after hmove (by simp [ending?, stage']) ?_)
      rw [hm.redirected_eq]
      exact hm.go (.follow (hakin.add _ _)) hm.stack
        (by simp [openKeys, opened, stage, Frame.add]) rfl rfl rfl rfl
  | descend stage found many new =>
      obtain ⟨f', stage', hakin⟩ := hm.probe stage
      have hmove : Move plan' view false w' _ :=
        .descend stage' found (by rw [hm.once_contains, many]) (by rw [hm.keys, new])
      refine .inr (Mirrors.after hmove (by simp [ending?, stage']) ?_)
      exact hm.go (.enter _ _) (.cons ⟨hakin, rfl⟩ hm.stack)
        (by simp [openKeys, opened, stage]) rfl rfl rfl rfl
  | @keep f stage done same problems =>
      have hfinish : w.finish plan f = { w with stage := .leave none } := by
        simp [Walk.finish, same, problems]
      rw [← hfinish]
      exact .inr (hm.followed hw hw' hcanonical hcanonical' stage done)
  | @replace f stage done changed =>
      have hfinish : w.finish plan f = _ := if_neg (by simpa using changed)
      rw [← hfinish]
      exact .inr (hm.followed hw hw' hcanonical hcanonical' stage done)
  | back stage inner => exact .inr (hm.back stage inner)
  | finish stage outer =>
      have stage' := hm.stage_eq stage (by simp [opened, stage])
      have outer' : w'.stack = [] := List.forall₂_nil_left_iff.1 (outer ▸ hm.stack)
      have hmove : Move plan' view false w' _ := .finish stage' outer'
      refine .inr (Mirrors.after hmove (by simp [ending?, stage']) ?_)
      exact hm.go (.ended _) hm.stack (by simp [openKeys, opened, stage]) rfl rfl rfl rfl
  | fail stage outer =>
      have stage' := hm.stage_eq stage (by simp [opened, stage])
      have outer' : w'.stack = [] := List.forall₂_nil_left_iff.1 (outer ▸ hm.stack)
      have hmove : Move plan' view false w' _ := .fail stage' outer'
      refine .inr (Mirrors.after hmove (by simp [ending?, stage']) ?_)
      exact hm.go (.ended _) hm.stack (by simp [openKeys, opened, stage]) rfl rfl rfl rfl
  | rest _ => exact .inr ⟨0, hm⟩

/-- The walk from scratch follows, in one step or in two. -/
theorem mirror_move (hplan : plan.Afresh plan') (htrusts : plan.Trusts m)
    (h : Move plan m.view false w a) (hw : w.Coherent plan) (hw' : w'.Coherent plan')
    (hcanonical : w.Canonical) (hcanonical' : w'.Canonical) (hm : w.Mirrors w') :
    ∃ n, a.Mirrors (w'.run plan' m.view n) := by
  have hprevious : ∀ {p s} {P : Variant → Prop} (v : Variant),
      plan'.previous.get? p s = some v → P v := fun v hv => by simp [hplan.previous] at hv
  obtain hfetches | hn := hm.fetches_or hplan.alike h hw hw' hcanonical hcanonical'
  · cases hfetches with
    | reuseLive stage new live previous same =>
        obtain ⟨hfresh, hsettled⟩ := htrusts _ _ _ previous
        have stage' := hm.stage_eq stage (by simp [opened, stage])
        refine Mirrors.step (by simp [ending?, stage']) ?_
        have h : Mirrors _ (w'.step plan' m.view false) :=
          hm.live hplan stage new live (hfresh.of_buffer same) hsettled.path hsettled.relativePath
            same
        exact h.recount
    | scanLive stage new live _ =>
        have stage' := hm.stage_eq stage (by simp [opened, stage])
        refine Mirrors.step (by simp [ending?, stage']) ?_
        have h : Mirrors _ (w'.step plan' m.view false) :=
          hm.live hplan stage new live (scanOf_variantOf plan w.made _ _ _ _ _) rfl rfl
            ⟨rfl, rfl⟩
        exact h.recount
    | reuseStored stage answer previous same =>
        exact hm.reuseStored hplan htrusts stage answer previous same
    | askText stage answer _ =>
        have stage' := hm.stage_eq stage (by simp [opened, stage])
        have hmove : Move plan' m.view false w' _ := .askText stage' answer hprevious
        refine Mirrors.after hmove (by simp [ending?, stage']) ?_
        exact hm.go (.read _ _ _) hm.stack (by simp [openKeys, opened, stage]) rfl rfl rfl rfl
    | scanStored stage answer =>
        have stage' := hm.stage_eq stage (by simp [opened, stage])
        refine Mirrors.step (by simp [ending?, stage']) ?_
        have h := hm.stored hplan (by simp [opened, stage]) stage' answer
          (scanOf_variantOf plan w.made _ _ _ _ _) rfl rfl ⟨rfl, rfl⟩
        exact h.recount
  · exact hn

theorem run_coherent (plan : Plan) (view : FileView) (entry : Path) (symbols : Symbols) (n : Nat) :
    ((start entry symbols).run plan view n).Coherent plan :=
  run_preserves (fun hmove => move_coherent hmove) (coherent_start _ _ _) n

theorem run_canonical (hprevious : ∀ p s v, plan.previous.get? p s = some v →
    ∀ r ∈ v.references, r.Canonical) (view : FileView) (entry : Path) (symbols : Symbols)
      (n : Nat) :
    ((start entry symbols).run plan view n).Canonical := by
  have hrun := run_preserves
    (P := fun w => w.Coherent plan ∧
      w.Holds (fun _ _ _ => True) (fun _ _ v => ∀ r ∈ v.references, r.Canonical))
    (fun {_ _} (hmove : Move plan view false _ _) hw => ⟨move_coherent hmove hw.1,
      move_holds hmove (upholds_canonical hprevious) hw.1 hw.2⟩)
    ⟨coherent_start _ entry symbols, holds_start _ _⟩ n
  exact hrun.2.index

/-- Wherever a walk comes to, the walk from scratch comes to the same point. -/
theorem mirror_run (hplan : plan.Afresh plan') (htrusts : plan.Trusts m) (entry : Path)
    (symbols : Symbols) (n : Nat) :
    ∃ k, ((start entry symbols).run plan m.view n).Mirrors
      ((start entry symbols).run plan' m.view k) := by
  have hprevious : ∀ p s v, plan'.previous.get? p s = some v →
      ∀ r ∈ v.references, r.Canonical := by
    intro p s v hv
    simp [hplan.previous] at hv
  induction n with
  | zero => exact ⟨0, mirrors_start entry symbols⟩
  | succ n ih =>
      obtain ⟨k, hm⟩ := ih
      have hcanonical := run_canonical (fun p s v hv => (htrusts p s v hv).2.canonical) m.view
        entry symbols n
      obtain ⟨j, hj⟩ := mirror_move hplan htrusts (step_move _ _ _ _) (run_coherent _ _ _ _ n)
        (run_coherent _ _ _ _ k) hcanonical (run_canonical hprevious m.view entry symbols k) hm
      rw [← run_succ, ← run_add] at hj
      exact ⟨k + j, hj⟩

/-- Two walks that have come to their end together have the same index. -/
theorem Mirrors.agrees (h : w.Mirrors w') (hw : w.Coherent plan)
    (hend : w.ending? = some .complete) : w.index.Agrees w'.index where
  contains := h.keys
  variants := by
    intro p s v v' hv hv'
    have stage := stage_of_ending hend
    have hclosed : w.opened = [] := by simp [opened, stage, hw.done stage]
    obtain ⟨_, ⟨x, hx, _⟩ | hagrees⟩ := h.variants p s v v' hv hv'
    · simp [hclosed] at hx
    · exact hagrees

/-- A walk that takes over variants computes what the same walk from scratch computes, and that walk
comes to an end as well. -/
theorem run_agrees (hplan : plan.Afresh plan') (htrusts : plan.Trusts m) (entry : Path)
    (symbols : Symbols) {n : Nat}
    (hend : ((start entry symbols).run plan m.view n).ending? = some .complete) :
    ∃ k, ((start entry symbols).run plan' m.view k).ending? = some .complete ∧
      ((start entry symbols).run plan m.view n).index.Agrees
        ((start entry symbols).run plan' m.view k).index := by
  obtain ⟨k, hm⟩ := mirror_run hplan htrusts entry symbols n
  have hcoherent := run_coherent plan m.view entry symbols n
  have stage := stage_of_ending hend
  have hclosed := hcoherent.done stage
  have stage' := hm.stage_eq stage (by simp [opened, stage, hclosed])
  exact ⟨k, by simp [ending?, stage'], hm.agrees hcoherent hend⟩

end Mirrors

end Walk

namespace Indexer

/-- The imports of all variants that an indexer holds were found under normal forms. -/
theorem canonical_run (config : Config) (files : Memory) (actions : List Action) :
    Holding (fun _ _ _ _ => True) (fun _ _ _ v => ∀ r ∈ v.references, r.Canonical)
      ((new config files).run actions) :=
  holding_run Walk.upholds_canonical config files actions

end Indexer

end AsmIndex

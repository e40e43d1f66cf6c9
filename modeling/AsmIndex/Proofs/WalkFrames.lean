import AsmIndex.Proofs.PathForm
import AsmIndex.Proofs.WalkMoves

/-!
The open files of a walk: registered files whose imports are being followed. Each is in the index
under its own key, no two have the same key, and the imports that were followed and those that are
left are together the imports of its text.
-/

namespace AsmIndex

namespace Reference

@[simp] theorem unresolved_unresolved (r : Reference) : r.unresolved.unresolved = r.unresolved :=
  rfl

@[simp] theorem unresolved_resolveTo (r : Reference) (path : Path) :
    (r.resolveTo path).unresolved = r.unresolved :=
  rfl

@[simp] theorem unresolved_redirect (r : Reference) (s : Symbols) :
    (r.redirect s).unresolved = r.unresolved :=
  rfl

/-- The import was not found, or it was found under a normal form. -/
def Canonical (r : Reference) : Prop := ∀ q, r.resolved = some q → q.IsNormal

theorem candidates_normal (r : Reference) (directory : Path) (libraries : List Path) :
    ∀ q ∈ r.candidates directory libraries, q.IsNormal := by
  intro q hq
  unfold candidates at hq
  split at hq
  · simp at hq
  · unfold Path.candidates at hq
    split at hq
    · exact ⟨_, by simpa using hq⟩
    · obtain ⟨root, _, hroot⟩ := List.mem_filterMap.1 hq
      exact ⟨_, hroot⟩

end Reference

namespace Walk

@[simp] theorem redirected_unresolved (w : Walk) (r : Reference) (target : Path) :
    (w.redirected r target).unresolved = r.unresolved := by
  unfold redirected
  split <;> simp

@[simp] theorem redirected_resolved (w : Walk) (r : Reference) (target : Path) :
    (w.redirected r target).resolved = r.resolved := by
  unfold redirected
  split <;> rfl

namespace Frame

/-- Two frames are of the same file under the same symbols. -/
def SameKey (f g : Frame) : Prop := f.path.components = g.path.components ∧ f.symbols = g.symbols

/-- A frame keeps track of the imports of its text, where `current` is the one it is at: none is
lost, and those that were found are found under normal forms. -/
structure Tracks (f : Frame) (current : List Reference) : Prop where
  balanced : (f.followed ++ current ++ f.pending).map Reference.unresolved =
    f.variant.references.map Reference.unresolved
  canonical : ∀ r ∈ f.followed ++ current, r.Canonical

theorem Tracks.opening (path : Path) (symbols : Symbols) (v : Variant) :
    Tracks ⟨path, symbols, v, v.references, [], []⟩ [] :=
  ⟨rfl, by simp⟩

theorem Tracks.next {f : Frame} (h : f.Tracks []) {r : Reference} {pending : List Reference}
    (more : f.pending = r :: pending) : Tracks { f with pending } [r.unresolved] where
  balanced := by
    have hbalanced := h.balanced
    simpa [more] using hbalanced
  canonical := by
    intro r' hr'
    rcases List.mem_append.1 hr' with hr' | hr'
    · exact h.canonical r' (by simpa using hr')
    · obtain rfl := List.mem_singleton.1 hr'
      rintro q ⟨⟩

theorem Tracks.change {f : Frame} {r r' : Reference} (h : f.Tracks [r])
    (hsame : r'.unresolved = r.unresolved) (hcanonical : r'.Canonical) : f.Tracks [r'] where
  balanced := by
    have hbalanced := h.balanced
    simp only [List.map_append, List.map_cons, List.map_nil, hsame] at hbalanced ⊢
    exact hbalanced
  canonical := by
    intro x hx
    rcases List.mem_append.1 hx with hx | hx
    · exact h.canonical x (List.mem_append_left _ hx)
    · obtain rfl := List.mem_singleton.1 hx
      exact hcanonical

theorem Tracks.add {f : Frame} {r : Reference} (h : f.Tracks [r]) (problem : Option Diagnostic) :
    (f.add r problem).Tracks [] where
  balanced := by
    have hbalanced := h.balanced
    simpa [Frame.add] using hbalanced
  canonical := fun x hx => h.canonical x (by simpa [Frame.add] using hx)

end Frame

/-- The open files, the innermost first, each with the import that it is at. -/
def opened (w : Walk) : List (Frame × List Reference) :=
  (match w.stage with
    | .follow f => [(f, [])]
    | .probe f r _ => [(f, [r])]
    | _ => []) ++ w.stack.map fun x => (x.1, [x.2])

theorem opened_follow {w : Walk} {f : Frame} (stage : w.stage = .follow f) :
    w.opened = (f, []) :: w.stack.map fun x => (x.1, [x.2]) := by
  simp [opened, stage]

theorem opened_probe {w : Walk} {f : Frame} {r : Reference} {cs : List Path}
    (stage : w.stage = .probe f r cs) :
    w.opened = (f, [r]) :: w.stack.map fun x => (x.1, [x.2]) := by
  simp [opened, stage]

/-- The file at `p` is open under the symbols `s`. -/
def IsOpen (w : Walk) (p : Path) (s : Symbols) : Prop :=
  ∃ x ∈ w.opened, x.1.path.components = p.components ∧ x.1.symbols = s

theorem stack_sublist_opened (w : Walk) :
    (w.stack.map fun x => (x.1, [x.2])).Sublist w.opened :=
  List.sublist_append_right _ _

/-- The stage of a walk asks for the time or the text of a file. -/
def AsksFor (w : Walk) (p : Path) (s : Symbols) : Prop :=
  w.stage = .stamp p s ∨ ∃ t, w.stage = .read p s t

/-- The walk comes to a file under symbols, or asks for it. -/
def ComesTo (w : Walk) (p : Path) (s : Symbols) : Prop := w.stage = .enter p s ∨ w.AsksFor p s

/-- A walk is coherent in its open files and in what it asks. -/
structure Coherent (plan : Plan) (w : Walk) : Prop where
  tracks : ∀ x ∈ w.opened, x.1.Tracks x.2
  held : ∀ x ∈ w.opened, w.index.get? x.1.path x.1.symbols = some x.1.variant
  distinct : w.opened.Pairwise fun x y => ¬ x.1.SameKey y.1
  normal : ∀ {f r cs}, w.stage = .probe f r cs → ∀ q ∈ cs, q.IsNormal
  stored : ∀ {p s}, w.AsksFor p s → plan.live.get? p = none
  new : ∀ {p s}, w.AsksFor p s → w.index.contains p s = false
  done : w.stage = .ended .complete → w.stack = []

theorem coherent_start (plan : Plan) (entry : Path) (symbols : Symbols) :
    (start entry symbols).Coherent plan := by
  constructor <;> simp [start, opened, AsksFor]

section Coherent

variable {plan : Plan} {w w' : Walk}

theorem Coherent.innermost (h : w.Coherent plan) {f : Frame} {current : List Reference}
    {rest : List (Frame × List Reference)} (hopened : w.opened = (f, current) :: rest) :
    f.Tracks current :=
  h.tracks (f, current) (by simp [hopened])

/-- Files are closed, and nothing else changes but the stage. -/
theorem Coherent.drop (h : w.Coherent plan) (hopened : w'.opened.Sublist w.opened)
    (hindex : w'.index = w.index)
    (hnormal : ∀ {f r cs}, w'.stage = .probe f r cs → ∀ q ∈ cs, q.IsNormal)
    (hstored : ∀ {p s}, w'.AsksFor p s → plan.live.get? p = none ∧
      w.index.contains p s = false)
    (hdone : w'.stage = .ended .complete → w'.stack = []) : w'.Coherent plan where
  tracks := fun x hx => h.tracks x (hopened.subset hx)
  held := fun x hx => by rw [hindex]; exact h.held x (hopened.subset hx)
  distinct := h.distinct.sublist hopened
  normal := hnormal
  stored := fun hasks => (hstored hasks).1
  new := fun hasks => by rw [hindex]; exact (hstored hasks).2
  done := hdone

theorem Coherent.leave (h : w.Coherent plan) (failure : Option FileError) :
    Coherent plan { w with stage := .leave failure } :=
  h.drop w.stack_sublist_opened rfl (by simp) (by simp [AsksFor]) (by simp)

theorem Coherent.end (h : w.Coherent plan) {ending : Ending}
    (hdone : ending = .complete → w.stack = []) :
    Coherent plan { w with stage := .ended ending } :=
  h.drop w.stack_sublist_opened rfl (by simp) (by simp [AsksFor]) (by simpa using hdone)

/-- The innermost open file goes on, its key and its variant staying as they are. -/
theorem Coherent.touch (h : w.Coherent plan) {f f' : Frame} {current current' : List Reference}
    {rest : List (Frame × List Reference)} (hopened : w.opened = (f, current) :: rest)
    (hopened' : w'.opened = (f', current') :: rest) (hindex : w'.index = w.index)
    (hkey : f'.path = f.path ∧ f'.symbols = f.symbols ∧ f'.variant = f.variant)
    (htracks : f'.Tracks current')
    (hnormal : ∀ {f r cs}, w'.stage = .probe f r cs → ∀ q ∈ cs, q.IsNormal)
    (hasks : ∀ {p s}, ¬ w'.AsksFor p s) (hdone : w'.stage ≠ .ended .complete) :
    w'.Coherent plan where
  tracks := by
    intro x hx
    rw [hopened', List.mem_cons] at hx
    rcases hx with rfl | hx
    · exact htracks
    · exact h.tracks x (by simp [hopened, hx])
  held := by
    intro x hx
    rw [hopened', List.mem_cons] at hx
    rcases hx with rfl | hx
    · rw [hindex, hkey.1, hkey.2.1, hkey.2.2]
      exact h.held (f, current) (by simp [hopened])
    · rw [hindex]
      exact h.held x (by simp [hopened, hx])
  distinct := by
    have hdistinct := h.distinct
    rw [hopened, List.pairwise_cons] at hdistinct
    rw [hopened', List.pairwise_cons]
    refine ⟨fun y hy hsame => hdistinct.1 y hy ?_, hdistinct.2⟩
    simpa only [Frame.SameKey, hkey.1, hkey.2.1] using hsame
  normal := hnormal
  stored := fun h => absurd h hasks
  new := fun h => absurd h hasks
  done := fun h => absurd h hdone

/-- A file is registered that was not in the index. -/
theorem Coherent.open (h : w.Coherent plan) {p : Path} {s : Symbols} {v : Variant}
    (hnew : w.index.contains p s = false) (hindex : w'.index = w.index.insert p s v)
    (hopened : w'.opened =
      (⟨p, s, v, v.references, [], []⟩, []) :: w.stack.map fun x => (x.1, [x.2]))
    (hstage : w'.stage = .follow ⟨p, s, v, v.references, [], []⟩) : w'.Coherent plan := by
  have hheld : ∀ x ∈ w.stack.map (fun x => (x.1, [x.2])),
      w.index.get? x.1.path x.1.symbols = some x.1.variant := fun x hx =>
    h.held x (w.stack_sublist_opened.subset hx)
  -- What is open is in the index, so the new key is another one.
  have hother : ∀ x ∈ w.stack.map (fun x => (x.1, [x.2])),
      ¬ (x.1.path.components = p.components ∧ x.1.symbols = s) := by
    rintro x hx ⟨hpath, hsymbols⟩
    have hcontains : w.index.contains x.1.path x.1.symbols = true :=
      Index.contains_iff.2 ⟨_, hheld x hx⟩
    rw [Index.contains_congr hpath, hsymbols, hnew] at hcontains
    cases hcontains
  refine ⟨?_, ?_, ?_, ?_, ?_, ?_, ?_⟩
  · intro x hx
    rw [hopened, List.mem_cons] at hx
    rcases hx with rfl | hx
    · exact .opening p s v
    · exact h.tracks x (w.stack_sublist_opened.subset hx)
  · intro x hx
    rw [hindex]
    rw [hopened, List.mem_cons] at hx
    rcases hx with rfl | hx
    · exact Index.get?_insert_self _ _ _ _
    · rw [Index.get?_insert, if_neg (hother x hx)]
      exact hheld x hx
  · rw [hopened, List.pairwise_cons]
    refine ⟨fun y hy hsame => hother y hy ⟨hsame.1.symm, hsame.2.symm⟩, ?_⟩
    exact h.distinct.sublist w.stack_sublist_opened
  · simp [hstage]
  · simp [AsksFor, hstage]
  · simp [AsksFor, hstage]
  · simp [hstage]

/-- The innermost open file is closed, and its variant replaced. -/
theorem Coherent.close (h : w.Coherent plan) {f : Frame} {current : List Reference}
    {rest : List (Frame × List Reference)} {v : Variant} {failure : Option FileError}
    (hopened : w.opened = (f, current) :: rest) (hopened' : w'.opened = rest)
    (hindex : w'.index = w.index.insert f.path f.symbols v) (hstage : w'.stage = .leave failure) :
    w'.Coherent plan := by
  have hdistinct := h.distinct
  rw [hopened, List.pairwise_cons] at hdistinct
  refine ⟨?_, ?_, ?_, ?_, ?_, ?_, ?_⟩
  · intro x hx
    exact h.tracks x (by simp [hopened, ← hopened', hx])
  · intro x hx
    rw [hopened'] at hx
    have hother : ¬ (x.1.path.components = f.path.components ∧ x.1.symbols = f.symbols) :=
      fun hsame => hdistinct.1 x hx ⟨hsame.1.symm, hsame.2.symm⟩
    rw [hindex, Index.get?_insert, if_neg hother]
    exact h.held x (by simp [hopened, hx])
  · rw [hopened']
    exact hdistinct.2
  · simp [hstage]
  · simp [AsksFor, hstage]
  · simp [AsksFor, hstage]
  · simp [hstage]

theorem move_coherent {view : FileView} {cancelled : Bool} (h : Move plan view cancelled w w')
    (hw : w.Coherent plan) : w'.Coherent plan := by
  cases h with
  | quitEnter stage _ => exact hw.end (by simp)
  | quitFollow stage _ _ => exact hw.end (by simp)
  | known stage _ => exact hw.leave none
  | reuseLive stage new _ _ _ => exact hw.open new rfl rfl rfl
  | scanLive stage new _ _ => exact hw.open new rfl rfl rfl
  | @askTime path symbols stage new stored =>
      refine hw.drop w.stack_sublist_opened rfl (by simp) ?_ (by simp)
      intro p s hasks
      obtain ⟨rfl, rfl⟩ : path = p ∧ symbols = s := by simpa [AsksFor] using hasks
      exact ⟨stored, new⟩
  | noTime stage _ => exact hw.leave _
  | reuseStored stage _ _ _ => exact hw.open (hw.new (.inl stage)) rfl rfl rfl
  | @askText path symbols time stage _ _ =>
      refine hw.drop w.stack_sublist_opened rfl (by simp) ?_ (by simp)
      intro p s hasks
      obtain ⟨rfl, rfl⟩ : path = p ∧ symbols = s := by simpa [AsksFor] using hasks
      exact ⟨hw.stored (.inl stage), hw.new (.inl stage)⟩
  | noText stage _ => exact hw.leave _
  | scanStored stage _ => exact hw.open (hw.new (.inr ⟨_, stage⟩)) rfl rfl rfl
  | @look f r pending stage more =>
      have hopened := opened_follow stage
      refine hw.touch hopened rfl rfl ⟨rfl, rfl, rfl⟩ ?_ ?_ (by simp [AsksFor]) (by simp)
      · exact (hw.innermost hopened).next more
      · rintro _ _ _ ⟨⟩
        exact r.unresolved.candidates_normal _ _
  | skip stage _ =>
      have hopened := opened_probe stage
      refine hw.touch hopened rfl rfl ⟨rfl, rfl, rfl⟩ (hw.innermost hopened) ?_
        (by simp [AsksFor]) (by simp)
      rintro _ _ _ ⟨⟩ q hq
      exact hw.normal stage q (List.mem_cons_of_mem _ hq)
  | missing stage =>
      have hopened := opened_probe stage
      refine hw.touch hopened rfl rfl ⟨rfl, rfl, rfl⟩ ?_ (by simp [missing])
        (by simp [AsksFor, missing]) (by simp [missing])
      exact (hw.innermost hopened).add _
  | @meet f r path rest stage _ _ =>
      have hopened := opened_probe stage
      refine hw.touch hopened rfl rfl ⟨rfl, rfl, rfl⟩ ?_ (by simp) (by simp [AsksFor]) (by simp)
      refine ((hw.innermost hopened).change (by simp) ?_).add _
      intro q hq
      obtain rfl : path = q := by simpa [Reference.resolveTo] using hq
      exact hw.normal stage path (by simp)
  | @descend f r path rest stage _ _ _ =>
      have hopened := opened_probe stage
      refine hw.touch hopened rfl rfl ⟨rfl, rfl, rfl⟩ ?_ (by simp) (by simp [AsksFor]) (by simp)
      refine (hw.innermost hopened).change (by simp) ?_
      intro q hq
      obtain rfl : path = q := by simpa [Reference.resolveTo] using hq
      exact hw.normal stage path (by simp)
  | keep stage _ _ _ => exact hw.leave none
  | replace stage _ _ => exact hw.close (opened_follow stage) rfl rfl rfl
  | @back failure f r stack stage inner =>
      have hopened : w.opened = (f, [r]) :: stack.map fun x => (x.1, [x.2]) := by
        simp [opened, stage, inner]
      have htracks := hw.innermost hopened
      simp only [leave, inner]
      refine hw.touch hopened rfl rfl ⟨rfl, rfl, rfl⟩ ?_ (by simp) (by simp [AsksFor]) (by simp)
      refine (htracks.change (by simp) ?_).add _
      intro q hq
      exact htracks.canonical r (by simp) q (by simpa using hq)
  | finish stage outer => exact hw.end fun _ => outer
  | fail stage outer => exact hw.end (by simp)
  | rest _ => exact hw

end Coherent

section Keys

variable {plan : Plan} {view : FileView} {cancelled : Bool} {w w' : Walk}

theorem contains_register (w : Walk) (p : Path) (s : Symbols) (v : Variant) :
    (w.register p s v).index.contains p s = true :=
  (Index.contains_insert _ _ _ _ _ _).2 (.inl ⟨rfl, rfl⟩)

/-- No move takes a key out of the index. -/
theorem move_contains (h : Move plan view cancelled w w') {p : Path} {s : Symbols}
    (hp : w.index.contains p s = true) : w'.index.contains p s = true := by
  cases h with
  | reuseLive | scanLive | reuseStored | scanStored | replace =>
      exact (Index.contains_insert _ _ _ _ _ _).2 (.inr hp)
  | back => simpa using hp
  | _ => exact hp

/-- A key that a move registers is the one that the walk has come to. -/
theorem comesTo_of_registers (h : Move plan view cancelled w w') {p : Path} {s : Symbols}
    (hw : w.Coherent plan) (hnew : w.index.contains p s = false)
    (hp : w'.index.contains p s = true) :
    ∃ q : Path, q.components = p.components ∧ w.ComesTo q s := by
  have hinsert : ∀ {q t v}, (w.index.insert q t v).contains p s = true →
      p.components = q.components ∧ s = t := fun hcontains =>
    ((Index.contains_insert _ _ _ _ _ _).1 hcontains).resolve_right (by simp [hnew])
  cases h with
  | reuseLive stage | scanLive stage =>
      obtain ⟨hpath, rfl⟩ := hinsert hp
      exact ⟨_, hpath.symm, .inl stage⟩
  | reuseStored stage =>
      obtain ⟨hpath, rfl⟩ := hinsert hp
      exact ⟨_, hpath.symm, .inr (.inl stage)⟩
  | scanStored stage =>
      obtain ⟨hpath, rfl⟩ := hinsert hp
      exact ⟨_, hpath.symm, .inr (.inr ⟨_, stage⟩)⟩
  | @replace f stage =>
      -- An open file is in the index already.
      obtain ⟨hpath, rfl⟩ := hinsert hp
      have hcontains :=
        Index.contains_iff.2 ⟨_, hw.held (f, []) (by simp [opened_follow stage])⟩
      rw [← Index.contains_congr hpath, hnew] at hcontains
      cases hcontains
  | back => simp [hnew] at hp
  | _ => simp [missing, hnew] at hp

end Keys

/-- How the file that a walk has come to is registered, and with which variant. -/
inductive Registers (plan : Plan) (view : FileView) (w : Walk) (p : Path) (s : Symbols) :
    Variant → Prop
  | reuseLive {buffer v} (stage : w.stage = .enter p s) (live : plan.live.get? p = some buffer)
      (previous : plan.previous.get? p s = some v) (same : v.FromBuffer buffer) :
      Registers plan view w p s v
  | scanLive {buffer} (stage : w.stage = .enter p s) (live : plan.live.get? p = some buffer)
      (changed : ∀ v, plan.previous.get? p s = some v → ¬ v.FromBuffer buffer) :
      Registers plan view w p s
        (variantOf plan w.made p s buffer.content buffer.time (some buffer.content))
  | reuseStored {time v} (stage : w.stage = .stamp p s) (answer : view.modified p = .ok time)
      (previous : plan.previous.get? p s = some v) (same : v.FromStored time) :
      Registers plan view w p s v
  | scanStored {time text} (stage : w.stage = .read p s time) (answer : view.read p = .ok text) :
      Registers plan view w p s (variantOf plan w.made p s text time none)

/-- How the innermost open file is closed, and with which variant. -/
inductive Closes (plan : Plan) (w : Walk) (f : Frame) : Variant → Prop
  | keep (stage : w.stage = .follow f) (done : f.pending = [])
      (same : Variant.sameReferences f.followed f.variant.references = true)
      (problems : f.problems = f.variant.resolutionDiagnostics) : Closes plan w f f.variant
  | replace (stage : w.stage = .follow f) (done : f.pending = [])
      (changed : ¬ (Variant.sameReferences f.followed f.variant.references = true ∧
        f.problems = f.variant.resolutionDiagnostics)) :
      Closes plan w f (f.variant.withReferences ⟨plan.pass, w.made⟩ f.followed f.problems)

section Files

variable {plan : Plan} {view : FileView} {cancelled : Bool} {w w' : Walk}

/-- A file that is open was open before, or it is registered now. -/
theorem move_opened (h : Move plan view cancelled w w') {x : Frame × List Reference}
    (hx : x ∈ w'.opened) :
    (∃ y ∈ w.opened, y.1.path = x.1.path ∧ y.1.symbols = x.1.symbols ∧
      y.1.variant = x.1.variant) ∨
      Registers plan view w x.1.path x.1.symbols x.1.variant := by
  have houter : x ∈ w.stack.map (fun x => (x.1, [x.2])) → ∃ y ∈ w.opened,
      y.1.path = x.1.path ∧ y.1.symbols = x.1.symbols ∧ y.1.variant = x.1.variant := fun hx =>
    ⟨x, w.stack_sublist_opened.subset hx, rfl, rfl, rfl⟩
  cases h with
  | reuseLive stage _ live previous same =>
      rcases List.mem_cons.1 hx with rfl | hx
      · exact .inr (.reuseLive stage live previous same)
      · exact .inl (houter hx)
  | scanLive stage _ live changed =>
      rcases List.mem_cons.1 hx with rfl | hx
      · exact .inr (.scanLive stage live changed)
      · exact .inl (houter hx)
  | reuseStored stage answer previous same =>
      rcases List.mem_cons.1 hx with rfl | hx
      · exact .inr (.reuseStored stage answer previous same)
      · exact .inl (houter hx)
  | scanStored stage answer =>
      rcases List.mem_cons.1 hx with rfl | hx
      · exact .inr (.scanStored stage answer)
      · exact .inl (houter hx)
  | @look f r pending stage =>
      rcases List.mem_cons.1 hx with rfl | hx
      · exact .inl ⟨(f, []), by simp [opened_follow stage], rfl, rfl, rfl⟩
      · exact .inl (houter hx)
  | @skip f r _ _ stage | @missing f r stage | @meet f r _ _ stage | @descend f r _ _ stage =>
      rcases List.mem_cons.1 hx with rfl | hx
      · exact .inl ⟨(f, [r]), by simp [opened_probe stage], rfl, rfl, rfl⟩
      · exact .inl (houter hx)
  | @back failure f r stack stage inner =>
      simp only [leave, inner] at hx
      rcases List.mem_cons.1 hx with rfl | hx
      · exact .inl (⟨(f, [r]), by simp [opened, stage, inner], rfl, rfl, rfl⟩)
      · exact .inl (houter (by rw [inner]; exact List.mem_cons_of_mem _ hx))
  | rest _ => exact .inl ⟨x, hx, rfl, rfl, rfl⟩
  | _ => exact .inl (houter hx)

/-- The index changes only where a file is registered or closed. -/
theorem move_index (h : Move plan view cancelled w w') :
    w'.index = w.index ∨
      (∃ p s v, Registers plan view w p s v ∧ w'.index = w.index.insert p s v) ∨
      ∃ f v, Closes plan w f v ∧ w'.index = w.index.insert f.path f.symbols v := by
  cases h with
  | reuseLive stage _ live previous same =>
      exact .inr (.inl ⟨_, _, _, .reuseLive stage live previous same, rfl⟩)
  | scanLive stage _ live changed =>
      exact .inr (.inl ⟨_, _, _, .scanLive stage live changed, rfl⟩)
  | reuseStored stage answer previous same =>
      exact .inr (.inl ⟨_, _, _, .reuseStored stage answer previous same, rfl⟩)
  | scanStored stage answer => exact .inr (.inl ⟨_, _, _, .scanStored stage answer, rfl⟩)
  | replace stage done changed => exact .inr (.inr ⟨_, _, .replace stage done changed, rfl⟩)
  | back => exact .inl (leave_index _ _)
  | _ => exact .inl rfl

/-- A walk comes to a file where it found an import. -/
theorem move_comesTo (h : Move plan view cancelled w w') {p : Path} {s : Symbols}
    (hcomes : w'.ComesTo p s) :
    w.ComesTo p s ∨ ∃ f r rest, w.stage = .probe f r (p :: rest) := by
  cases h with
  | @askTime path symbols stage =>
      obtain ⟨rfl, rfl⟩ : path = p ∧ symbols = s := by simpa [ComesTo, AsksFor] using hcomes
      exact .inl (.inl stage)
  | @askText path symbols time stage =>
      obtain ⟨rfl, rfl⟩ : path = p ∧ symbols = s := by simpa [ComesTo, AsksFor] using hcomes
      exact .inl (.inr (.inl stage))
  | @descend f r path rest stage =>
      obtain ⟨rfl, rfl⟩ : path = p ∧ r.active = s := by simpa [ComesTo, AsksFor] using hcomes
      exact .inr ⟨f, r, rest, stage⟩
  | back stage inner => simp [ComesTo, AsksFor, leave, inner] at hcomes
  | rest _ => exact .inl hcomes
  | _ => simp [ComesTo, AsksFor, reuse, tokenize, register, missing] at hcomes

theorem IsOpen.of_subset {p : Path} {s : Symbols} (h : w.IsOpen p s)
    (hsub : ∀ x ∈ w.opened, ∃ y ∈ w'.opened, y.1.path = x.1.path ∧
      y.1.symbols = x.1.symbols) :
    w'.IsOpen p s := by
  obtain ⟨x, hx, hpath, hsymbols⟩ := h
  obtain ⟨y, hy, hy₁, hy₂⟩ := hsub x hx
  exact ⟨y, hy, by rw [hy₁, hpath], by rw [hy₂, hsymbols]⟩

/-- A file is registered that stays open. -/
theorem closed_of_register {p q : Path} {s t : Symbols} {u v : Variant}
    (hopened : w.opened = w.stack.map fun x => (x.1, [x.2]))
    (hindex : w'.index = w.index.insert q t u)
    (hopened' : w'.opened =
      (⟨q, t, u, u.references, [], []⟩, []) :: w.stack.map fun x => (x.1, [x.2]))
    (hv : w'.index.get? p s = some v) (hclosed : ¬ w'.IsOpen p s) :
    w.index.get? p s = some v ∧ ¬ w.IsOpen p s := by
  rw [hindex, Index.get?_insert] at hv
  split at hv
  · rename_i hkey
    refine absurd ?_ hclosed
    exact ⟨(⟨q, t, u, u.references, [], []⟩, []), by simp [hopened'], hkey.1.symm,
      hkey.2.symm⟩
  · refine ⟨hv, fun hopen => hclosed (hopen.of_subset fun x hx => ?_)⟩
    exact ⟨x, by rw [hopened', ← hopened]; exact List.mem_cons_of_mem _ hx, rfl, rfl⟩

/-- The innermost open file goes on. -/
theorem closed_of_touch {p : Path} {s : Symbols} {v : Variant} (hclosed : ¬ w'.IsOpen p s)
    (hv : w'.index.get? p s = some v) {f f' : Frame} {current current' : List Reference}
    {rest : List (Frame × List Reference)} (hopened : w.opened = (f, current) :: rest)
    (hopened' : w'.opened = (f', current') :: rest)
    (hkey : f'.path = f.path ∧ f'.symbols = f.symbols) (hindex : w'.index = w.index) :
    w.index.get? p s = some v ∧ ¬ w.IsOpen p s := by
  refine ⟨hindex ▸ hv, fun hopen => hclosed (hopen.of_subset fun x hx => ?_)⟩
  rw [hopened, List.mem_cons] at hx
  rcases hx with rfl | hx
  · exact ⟨(f', current'), by simp [hopened'], hkey⟩
  · exact ⟨x, by simp [hopened', hx], rfl, rfl⟩

/-- The innermost open file is closed with the variant `v`. -/
theorem closes_or_closed {f : Frame} {v : Variant} (hopened : w.opened = (f, []) :: w'.opened)
    (hcloses : Closes plan w f v)
    (hget : ∀ q t, w'.index.get? q t =
      if q.components = f.path.components ∧ t = f.symbols then some v else w.index.get? q t)
    {p : Path} {s : Symbols} {u : Variant} (hu : w'.index.get? p s = some u)
    (hclosed : ¬ w'.IsOpen p s) :
    (w.index.get? p s = some u ∧ ¬ w.IsOpen p s) ∨
      ∃ f, f.path.components = p.components ∧ f.symbols = s ∧ Closes plan w f u := by
  rw [hget] at hu
  split at hu
  · rename_i hkey
    cases hu
    exact .inr ⟨f, hkey.1.symm, hkey.2.symm, hcloses⟩
  · rename_i hkey
    refine .inl ⟨hu, ?_⟩
    rintro ⟨x, hx, hpath, hsymbols⟩
    rw [hopened, List.mem_cons] at hx
    rcases hx with rfl | hx
    · exact hkey ⟨hpath.symm, hsymbols.symm⟩
    · exact hclosed ⟨x, hx, hpath, hsymbols⟩

/-- A file that is closed was closed before, with the same variant, or it is closed now. -/
theorem move_closed (h : Move plan view cancelled w w') (hcoherent : w.Coherent plan)
    (hvalid : w'.stage ≠ .ended .cancelled) {p : Path} {s : Symbols} {v : Variant}
    (hv : w'.index.get? p s = some v) (hclosed : ¬ w'.IsOpen p s) :
    (w.index.get? p s = some v ∧ ¬ w.IsOpen p s) ∨
      ∃ f, f.path.components = p.components ∧ f.symbols = s ∧ Closes plan w f v := by
  cases h with
  | quitEnter => exact absurd rfl hvalid
  | quitFollow => exact absurd rfl hvalid
  | known stage | askTime stage | noTime stage | askText stage | noText stage | finish stage
  | fail stage =>
      refine .inl ⟨hv, fun hopen => hclosed (hopen.of_subset fun x hx => ⟨x, ?_, rfl, rfl⟩)⟩
      simpa [opened, stage] using hx
  | reuseLive stage | scanLive stage | reuseStored stage | scanStored stage =>
      exact .inl (closed_of_register (by simp [opened, stage]) rfl rfl hv hclosed)
  | look stage =>
      exact .inl (closed_of_touch hclosed hv (opened_follow stage) rfl ⟨rfl, rfl⟩ rfl)
  | skip stage | missing stage | meet stage | descend stage =>
      exact .inl (closed_of_touch hclosed hv (opened_probe stage) rfl ⟨rfl, rfl⟩ rfl)
  | @back failure f r stack stage inner =>
      have hopened : w.opened = (f, [r]) :: stack.map fun x => (x.1, [x.2]) := by
        simp [opened, stage, inner]
      simp only [leave, inner] at hv hclosed
      exact .inl (closed_of_touch hclosed hv hopened rfl ⟨rfl, rfl⟩ rfl)
  | @keep f stage done same problems =>
      have hopened := opened_follow stage
      have hheld := hcoherent.held (f, []) (by simp [hopened])
      refine closes_or_closed hopened (.keep stage done same problems) ?_ hv hclosed
      intro q t
      show w.index.get? q t = _
      split
      · rename_i hkey
        rw [Index.get?_congr hkey.1, hkey.2]
        exact hheld
      · rfl
  | @replace f stage done changed =>
      exact closes_or_closed (opened_follow stage) (.replace stage done changed)
        (fun q t => Index.get?_insert _ _ _ _ _ _) hv hclosed
  | rest _ => exact .inl ⟨hv, hclosed⟩

/-- A walk asks for the text of a file once it has learned when the file was changed, and the
previous variant is not of that time. -/
theorem move_read (h : Move plan view cancelled w w') {p : Path} {s : Symbols} {t : Nat}
    (hstage : w'.stage = .read p s t) :
    w.stage = .stamp p s ∧ view.modified p = .ok t ∧
      ∀ v, plan.previous.get? p s = some v → ¬ v.FromStored t := by
  cases h with
  | askText stage answer changed =>
      cases hstage
      exact ⟨stage, answer, changed⟩
  | back stage inner => simp [leave, inner] at hstage
  | rest stage => cases stage.symm.trans hstage
  | _ => cases hstage

/-- When a walk is complete, every file is closed. -/
theorem Coherent.not_isOpen (hw : w.Coherent plan) (hend : w.ending? = some .complete) (p : Path)
    (s : Symbols) : ¬ w.IsOpen p s := by
  have stage := stage_of_ending hend
  have hopened : w.opened = [] := by simp [opened, stage, hw.done stage]
  rintro ⟨x, hx, _⟩
  simp [hopened] at hx

end Files

/-- What a pass keeps true of variants: it holds of those that are taken over and of those that
are made. `Dated p s t` is what is known of the time `t` at which the file at `p` was changed,
when its text is asked for. -/
structure Upholds (plan : Plan) (view : FileView) (Dated : Path → Symbols → Nat → Prop)
    (P : Path → Symbols → Variant → Prop) : Prop where
  congr : ∀ {p q s v}, q.components = p.components → P p s v → P q s v
  reuseLive : ∀ {p s v buffer}, plan.live.get? p = some buffer →
    plan.previous.get? p s = some v → v.FromBuffer buffer → P p s v
  scanLive : ∀ {p s buffer} (serial : Nat), plan.live.get? p = some buffer →
    P p s (variantOf plan serial p s buffer.content buffer.time (some buffer.content))
  reuseStored : ∀ {p s v t}, plan.live.get? p = none → view.modified p = .ok t →
    plan.previous.get? p s = some v → v.FromStored t → P p s v
  dated : ∀ {p s t}, view.modified p = .ok t →
    (∀ v, plan.previous.get? p s = some v → ¬ v.FromStored t) → Dated p s t
  scanStored : ∀ {p s t text} (serial : Nat), plan.live.get? p = none → Dated p s t →
    view.read p = .ok text → P p s (variantOf plan serial p s text t none)
  replace : ∀ {f : Frame} (id : VariantId), f.Tracks [] → f.pending = [] →
    P f.path f.symbols f.variant →
    P f.path f.symbols (f.variant.withReferences id f.followed f.problems)

/-- Every variant in the index of the walk has a property. -/
structure Holds (Dated : Path → Symbols → Nat → Prop)
    (P : Path → Symbols → Variant → Prop) (w : Walk) : Prop where
  index : ∀ p s v, w.index.get? p s = some v → P p s v
  dated : ∀ {p s t}, w.stage = .read p s t → Dated p s t

section Holds

variable {plan : Plan} {view : FileView} {cancelled : Bool}
  {Dated : Path → Symbols → Nat → Prop} {P : Path → Symbols → Variant → Prop}
  {w w' : Walk}

theorem holds_start (entry : Path) (symbols : Symbols) : (start entry symbols).Holds Dated P where
  index := by
    intro p s v hv
    simp [start] at hv
  dated := by simp [start]

theorem Holds.insert (hw : w.Holds Dated P)
    (hcongr : ∀ {p q s v}, q.components = p.components → P p s v → P q s v) {p : Path}
    {s : Symbols} {v : Variant} (hv : P p s v) (hindex : w'.index = w.index.insert p s v)
    (hstage : ∀ p s t, w'.stage ≠ .read p s t) : w'.Holds Dated P where
  index := by
    rw [hindex]
    exact Index.forall_insert (P := P) hcongr hw.index hv
  dated := fun h => absurd h (hstage _ _ _)

theorem move_holds (h : Move plan view cancelled w w') (hP : Upholds plan view Dated P)
    (hcoherent : w.Coherent plan) (hw : w.Holds Dated P) : w'.Holds Dated P := by
  cases h with
  | reuseLive _ _ live previous same =>
      exact hw.insert hP.congr (hP.reuseLive live previous same) rfl (by simp [reuse, register])
  | scanLive _ _ live _ =>
      exact hw.insert hP.congr (hP.scanLive _ live) rfl (by simp [tokenize, register])
  | reuseStored stage answer previous same =>
      have hv := hP.reuseStored (hcoherent.stored (.inl stage)) answer previous same
      exact hw.insert hP.congr hv rfl (by simp [reuse, register])
  | askText stage answer changed =>
      refine ⟨hw.index, ?_⟩
      rintro _ _ _ ⟨⟩
      exact hP.dated answer changed
  | scanStored stage answer =>
      have hv :=
        hP.scanStored w.made (hcoherent.stored (.inr ⟨_, stage⟩)) (hw.dated stage) answer
      exact hw.insert hP.congr hv rfl (by simp [tokenize, register])
  | replace stage done _ =>
      have hopened := opened_follow stage
      have hheld := hcoherent.held _ (by rw [hopened]; exact List.mem_cons_self)
      have hv :=
        hP.replace ⟨plan.pass, w.made⟩ (hcoherent.innermost hopened) done (hw.index _ _ _ hheld)
      exact hw.insert hP.congr hv rfl (by simp)
  | back stage inner => exact ⟨by simpa using hw.index, by simp [leave, inner]⟩
  | rest _ => exact hw
  | _ => exact ⟨hw.index, by simp [missing]⟩

end Holds

end Walk

end AsmIndex

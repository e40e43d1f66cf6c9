import AsmIndex.Proofs.Freshness
import Mathlib.Logic.Relation

/-!
The import graph. A key, which is a file under incoming symbols, imports the keys that the imports
of its text lead to. A complete walk has registered the entry key and only keys that are reached
from it by imports; of the keys that those import it leaves out none but files that cannot be
loaded and files that are parsed once and are there already.
-/

namespace AsmIndex

namespace Plan

/-- Load a file under incoming symbols: take it from its live buffer or from the stored file,
where a variant of the previous index stands in for what was not changed since. -/
def load (plan : Plan) (view : FileView) (serial : Nat) (p : Path) (s : Symbols) :
    Except FileError Variant :=
  match plan.live.get? p with
  | some buffer =>
    let previous := (plan.previous.get? p s).filter fun v =>
      v.liveContent == some buffer.content && v.modified == buffer.time
    .ok (previous.getD
      (Walk.variantOf plan serial p s buffer.content buffer.time (some buffer.content)))
  | none => do
    let time ← view.modified p
    let previous := (plan.previous.get? p s).filter fun v =>
      v.liveContent.isNone && v.modified == time
    match previous with
    | some v => return v
    | none => return Walk.variantOf plan serial p s (← view.read p) time none

/-- A file can be loaded. -/
def Loads (plan : Plan) (view : FileView) (p : Path) (s : Symbols) : Prop :=
  ∃ v, plan.load view 0 p s = .ok v

/-- The text that a pass uses for a file. -/
def text? (plan : Plan) (m : Memory) (p : Path) : Option String :=
  match plan.live.get? p with
  | some buffer => some buffer.content
  | none => (m.files.get? p).map MemoryFile.content

/-- The imports that a file makes under incoming symbols. -/
def references (plan : Plan) (m : Memory) (p : Path) (s : Symbols) : List Reference :=
  match plan.text? m p with
  | some text => (Source.scan text s).findings.references
  | none => []

/-- A key imports another one: the text of its file makes an import, under the symbols of the
other key, of the file at its path. -/
def Imports (plan : Plan) (m : Memory) (k k' : Path × Symbols) : Prop :=
  ∃ r ∈ plan.references m k.1 k.2, r.active = k'.2 ∧
    ∃ q, r.target? m.view.isFile k.1.directory plan.libraries = some q ∧
      q.components = k'.1.components

section Load

variable {plan : Plan} {view : FileView} {serial : Nat} {p : Path} {s : Symbols}

theorem load_reuseLive {buffer : LiveBuffer} {v : Variant} (live : plan.live.get? p = some buffer)
    (previous : plan.previous.get? p s = some v) (same : v.FromBuffer buffer) :
    plan.load view serial p s = .ok v := by
  simp [load, live, previous, Option.filter, same.1, same.2]

theorem load_scanLive {buffer : LiveBuffer} (live : plan.live.get? p = some buffer)
    (changed : ∀ v, plan.previous.get? p s = some v → ¬ v.FromBuffer buffer) :
    plan.load view serial p s =
      .ok (Walk.variantOf plan serial p s buffer.content buffer.time (some buffer.content)) := by
  have hfilter : (plan.previous.get? p s).filter (fun v =>
      v.liveContent == some buffer.content && v.modified == buffer.time) = none := by
    simpa [Option.filter_eq_none_iff, Variant.FromBuffer] using changed
  simp only [load, live, hfilter, Option.getD_none]

theorem load_noTime {e : FileError} (stored : plan.live.get? p = none)
    (answer : view.modified p = .error e) : plan.load view serial p s = .error e := by
  simp [load, stored, answer, bind, Except.bind]

theorem load_reuseStored {time : Nat} {v : Variant} (stored : plan.live.get? p = none)
    (answer : view.modified p = .ok time) (previous : plan.previous.get? p s = some v)
    (same : v.FromStored time) : plan.load view serial p s = .ok v := by
  simp [load, stored, answer, previous, Option.filter, same.1, same.2, bind, Except.bind, pure,
    Except.pure]

theorem load_read {time : Nat} (stored : plan.live.get? p = none)
    (answer : view.modified p = .ok time)
    (changed : ∀ v, plan.previous.get? p s = some v → ¬ v.FromStored time) :
    plan.load view serial p s =
      (view.read p).map fun text => Walk.variantOf plan serial p s text time none := by
  have hfilter : (plan.previous.get? p s).filter (fun v =>
      v.liveContent.isNone && v.modified == time) = none := by
    simpa [Option.filter_eq_none_iff, Variant.FromStored] using changed
  simp only [load, stored, answer, hfilter, bind, Except.bind]
  cases view.read p <;> rfl

theorem loads_iff :
    plan.Loads view p s ↔ plan.live.get? p ≠ none ∨ ∃ t, view.modified p = .ok t ∧
      ((∃ v, plan.previous.get? p s = some v ∧ v.FromStored t) ∨
        ∃ text, view.read p = .ok text) := by
  unfold Loads
  cases hlive : plan.live.get? p with
  | some buffer => simp [load, hlive]
  | none =>
      cases htime : view.modified p with
      | error e => simp [load_noTime hlive htime]
      | ok t =>
          by_cases hfits : ∃ v, plan.previous.get? p s = some v ∧ v.FromStored t
          · obtain ⟨v, hprevious, hsame⟩ := hfits
            simp [load_reuseStored hlive htime hprevious hsame, hprevious, hsame]
          · have hchanged : ∀ v, plan.previous.get? p s = some v → ¬ v.FromStored t :=
              fun v hv hsame => hfits ⟨v, hv, hsame⟩
            rw [load_read hlive htime hchanged]
            cases hread : view.read p <;> simp [Except.map, hfits]

end Load

theorem loads_congr {plan : Plan} {m : Memory} {p q : Path} (h : q.components = p.components)
    (s : Symbols) : plan.Loads m.view q s ↔ plan.Loads m.view p s := by
  have hcompare := Path.compare_eq_iff.2 h
  simp only [loads_iff, Memory.modified_eq_ok, Memory.read_eq_ok, OrderedMap.get?_congr hcompare,
    OrderedMap.contains_congr hcompare, Index.get?_congr h]

theorem references_congr {plan : Plan} {m : Memory} {p q : Path} (h : q.components = p.components)
    (s : Symbols) : plan.references m q s = plan.references m p s := by
  simp only [references, text?, OrderedMap.get?_congr (Path.compare_eq_iff.2 h)]

end Plan

theorem Path.directory_congr {p q : Path} (h : q.components = p.components) :
    q.directory = p.directory := by
  simp only [directory, h]

theorem Reference.target?_unresolved (r : Reference) :
    r.unresolved.target? = r.target? := rfl

namespace Walk

/-- A walk that comes to a new key and is not cancelled loads it: it registers the variant, or
leaves with the error. -/
theorem enter_load {plan : Plan} {view : FileView} {w : Walk} {p : Path} {s : Symbols}
    (stage : w.stage = .enter p s) (new : w.index.contains p s = false) :
    ∃ n, match plan.load view w.made p s with
      | .ok v => (w.run plan view n).index = w.index.insert p s v ∧
          (w.run plan view n).stage = .follow ⟨p, s, v, v.references, [], []⟩
      | .error e => (w.run plan view n).index = w.index ∧
          (w.run plan view n).stage = .leave (some e) := by
  have hgoing : w.ending? = none := by simp [ending?, stage]
  cases hlive : plan.live.get? p with
  | some buffer =>
      refine ⟨1, ?_⟩
      rw [run_of_going hgoing, run]
      by_cases hfits : ∃ v, plan.previous.get? p s = some v ∧ v.FromBuffer buffer
      · obtain ⟨v, hprevious, hsame⟩ := hfits
        rw [Plan.load_reuseLive hlive hprevious hsame,
          (Move.reuseLive stage new hlive hprevious hsame).step_eq]
        exact ⟨rfl, rfl⟩
      · have hchanged : ∀ v, plan.previous.get? p s = some v → ¬ v.FromBuffer buffer :=
          fun v hv hsame => hfits ⟨v, hv, hsame⟩
        rw [Plan.load_scanLive hlive hchanged, (Move.scanLive stage new hlive hchanged).step_eq]
        exact ⟨rfl, rfl⟩
  | none =>
      have hfirst : w.step plan view false = { w with stage := .stamp p s } :=
        (Move.askTime stage new hlive).step_eq
      cases htime : view.modified p with
      | error e =>
          refine ⟨2, ?_⟩
          rw [run_of_going hgoing, hfirst, run_of_going rfl, run, Plan.load_noTime hlive htime,
            (Move.noTime rfl htime).step_eq]
          exact ⟨rfl, rfl⟩
      | ok t =>
          by_cases hfits : ∃ v, plan.previous.get? p s = some v ∧ v.FromStored t
          · obtain ⟨v, hprevious, hsame⟩ := hfits
            refine ⟨2, ?_⟩
            rw [run_of_going hgoing, hfirst, run_of_going rfl, run,
              Plan.load_reuseStored hlive htime hprevious hsame,
              (Move.reuseStored rfl htime hprevious hsame).step_eq]
            exact ⟨rfl, rfl⟩
          · have hchanged : ∀ v, plan.previous.get? p s = some v → ¬ v.FromStored t :=
              fun v hv hsame => hfits ⟨v, hv, hsame⟩
            refine ⟨3, ?_⟩
            rw [run_of_going hgoing, hfirst, run_of_going rfl,
              (Move.askText rfl htime hchanged).step_eq, run_of_going rfl, run,
              Plan.load_read hlive htime hchanged]
            cases hread : view.read p with
            | error e =>
                rw [(Move.noText rfl hread).step_eq]
                exact ⟨rfl, rfl⟩
            | ok text =>
                rw [(Move.scanStored rfl hread).step_eq]
                exact ⟨rfl, rfl⟩

/-- The variant of a key that can be loaded is made of the text that the pass uses. -/
def Uses (plan : Plan) (m : Memory) (p : Path) (s : Symbols) (v : Variant) : Prop :=
  plan.Loads m.view p s ∧ ∃ text, plan.text? m p = some text ∧ v.ScanOf text s

/-- The stored file was changed at the time `t`, and no variant of the previous index was. -/
def Outdated (plan : Plan) (m : Memory) (p : Path) (s : Symbols) (t : Nat) : Prop :=
  m.view.modified p = .ok t ∧ ∀ v, plan.previous.get? p s = some v → ¬ v.FromStored t

theorem upholds_uses {plan : Plan} {m : Memory}
    (hprevious : ∀ p s v, plan.previous.get? p s = some v → v.Fresh m p s) :
    Upholds plan m.view (Outdated plan m) (Uses plan m) where
  congr := by
    rintro p q s v hq ⟨hloads, text, htext, hscan⟩
    refine ⟨(Plan.loads_congr hq s).2 hloads, text, ?_, hscan⟩
    simpa only [Plan.text?, OrderedMap.get?_congr (Path.compare_eq_iff.2 hq)] using htext
  reuseLive := by
    intro p s v buffer hlive hold hsame
    refine ⟨Plan.loads_iff.2 (.inl (by simp [hlive])),
      buffer.content, by simp [Plan.text?, hlive], ?_⟩
    exact (hprevious p s v hold).of_buffer hsame
  scanLive := by
    intro p s buffer serial hlive
    refine ⟨Plan.loads_iff.2 (.inl (by simp [hlive])),
      buffer.content, by simp [Plan.text?, hlive], ?_⟩
    exact scanOf_variantOf _ _ _ _ _ _ _
  reuseStored := by
    intro p s v t hlive htime hold hsame
    refine ⟨Plan.loads_iff.2 (.inr ⟨t, htime, .inl ⟨v, hold, hsame⟩⟩), ?_⟩
    obtain ⟨f, hf, rfl⟩ := Memory.modified_eq_ok.1 htime
    exact ⟨f.content, by simp [Plan.text?, hlive, hf],
      (hprevious p s v hold).of_stored hf hsame⟩
  dated := fun htime hchanged => ⟨htime, hchanged⟩
  scanStored := by
    rintro p s t text serial hlive ⟨htime, _⟩ hread
    refine ⟨Plan.loads_iff.2 (.inr ⟨t, htime, .inr ⟨text, hread⟩⟩), text, ?_,
      scanOf_variantOf _ _ _ _ _ _ _⟩
    obtain ⟨_, f, hf, rfl⟩ := Memory.read_eq_ok.1 hread
    simp [Plan.text?, hlive, hf]
  replace := by
    rintro f id htracks hdone ⟨hloads, text, htext, hscan⟩
    exact ⟨hloads, text, htext, htracks.scanOf hdone hscan id⟩

theorem Uses.references {plan : Plan} {m : Memory} {p : Path} {s : Symbols} {v : Variant}
    (h : Uses plan m p s v) :
    v.references.map Reference.unresolved = plan.references m p s := by
  obtain ⟨_, text, htext, hscan⟩ := h
  simp only [Plan.references, htext]
  exact hscan.references

section Graph

variable {plan : Plan} {m : Memory} {entry : Path} {symbols : Symbols} {w w' : Walk}

/-- The target of an import of the file at `p` is in the index, or cannot be loaded, or is parsed
once. -/
def Handled (plan : Plan) (m : Memory) (w : Walk) (p : Path) (r : Reference) : Prop :=
  ∀ q, r.target? m.view.isFile p.directory plan.libraries = some q →
    w.index.contains q r.active = true ∨ ¬ plan.Loads m.view q r.active ∨
      w.once.contains q = true

/-- The keys and the files parsed once of a walk are there in a later one. -/
structure Grows (w w' : Walk) : Prop where
  index : ∀ {p s}, w.index.contains p s = true → w'.index.contains p s = true
  once : ∀ {p}, w.once.contains p = true → w'.once.contains p = true

theorem Grows.of_eq (hindex : w'.index = w.index) (honce : w'.once = w.once) : w.Grows w' :=
  ⟨by rw [hindex]; exact id, by rw [honce]; exact id⟩

theorem Handled.mono (hgrows : w.Grows w') {p : Path} {r : Reference}
    (h : Handled plan m w p r) : Handled plan m w' p r := by
  intro q hq
  rcases h q hq with hindex | hloads | honce
  · exact .inl (hgrows.index hindex)
  · exact .inr (.inl hloads)
  · exact .inr (.inr (hgrows.once honce))

theorem Handled.of_unresolved {p : Path} {r r' : Reference} (h : Handled plan m w p r)
    (hsame : r'.unresolved = r.unresolved) : Handled plan m w p r' := by
  intro q hq
  have hactive : r'.active = r.active := by
    show r'.unresolved.active = r.unresolved.active
    rw [hsame]
  rw [← Reference.target?_unresolved, hsame, Reference.target?_unresolved] at hq
  rw [hactive]
  exact h q hq

/-- One import within an index. -/
def Via (plan : Plan) (m : Memory) (index : Index) (k k' : Path × Symbols) : Prop :=
  index.contains k.1 k.2 = true ∧ index.contains k'.1 k'.2 = true ∧ plan.Imports m k k'

/-- A key is reached from the entry key by imports within the index of a walk. -/
def Reached (plan : Plan) (m : Memory) (entry : Path) (symbols : Symbols) (w : Walk) (p : Path)
    (s : Symbols) : Prop :=
  ∃ q : Path, q.components = p.components ∧
    Relation.ReflTransGen (Via plan m w.index) (entry, symbols) (q, s)

theorem Reached.mono (hgrows : w.Grows w') {p : Path} {s : Symbols}
    (h : Reached plan m entry symbols w p s) : Reached plan m entry symbols w' p s := by
  obtain ⟨q, hq, hchain⟩ := h
  refine ⟨q, hq, Relation.ReflTransGen.mono ?_ _ _ hchain⟩
  rintro k k' ⟨hk, hk', himports⟩
  exact ⟨hgrows.index hk, hgrows.index hk', himports⟩

/-- What a reached key imports is reached, once it is in the index. -/
theorem Reached.imports {k : Path × Symbols} (h : Reached plan m entry symbols w k.1 k.2)
    (hk : w.index.contains k.1 k.2 = true) {p : Path} {s : Symbols}
    (himports : plan.Imports m k (p, s)) (hp : w.index.contains p s = true) :
    Reached plan m entry symbols w p s := by
  obtain ⟨q, hq, hchain⟩ := h
  refine ⟨p, rfl, hchain.tail ⟨?_, hp, ?_⟩⟩
  · rw [Index.contains_congr hq]
    exact hk
  · obtain ⟨r, hr, hactive, t, htarget, ht⟩ := himports
    refine ⟨r, ?_, hactive, t, ?_, ht⟩
    · rw [Plan.references_congr hq]
      exact hr
    · rw [Path.directory_congr hq]
      exact htarget

theorem Reached.congr {p q : Path} {s : Symbols} (h : Reached plan m entry symbols w p s)
    (hq : p.components = q.components) : Reached plan m entry symbols w q s := by
  obtain ⟨p', hp', hchain⟩ := h
  exact ⟨p', hp'.trans hq, hchain⟩

/-- The walk covers the import graph up to its open files: their imports that were followed and all
imports of files that are closed are handled, and all keys are reached from the entry key. -/
structure Covers (plan : Plan) (m : Memory) (entry : Path) (symbols : Symbols) (w : Walk) :
    Prop where
  followed : ∀ x ∈ w.opened, ∀ r ∈ x.1.followed, Handled plan m w x.1.path r
  closed : ∀ p s, w.index.contains p s = true →
    w.IsOpen p s ∨ ∀ r ∈ plan.references m p s, Handled plan m w p r
  reached : ∀ p s, w.index.contains p s = true → Reached plan m entry symbols w p s
  once : ∀ q, w.once.contains q = true → ∃ s v, w.index.get? q s = some v ∧
    v.importOnce = true

theorem covers_start : Covers plan m entry symbols (start entry symbols) := by
  refine ⟨by simp [start, opened], ?_, ?_, ?_⟩
  all_goals simp [start, Index.contains, Index.get?, OrderedMap.empty, OrderedMap.get?,
    OrderedMap.lookup, OrderedMap.contains]

/-- The walk goes on with its innermost open file, without another key. -/
theorem Covers.touch (h : Covers plan m entry symbols w) {f f' : Frame}
    {current current' : List Reference} {rest : List (Frame × List Reference)}
    (hopened : w.opened = (f, current) :: rest) (hopened' : w'.opened = (f', current') :: rest)
    (hindex : w'.index = w.index) (honce : w'.once = w.once)
    (hkey : f'.path = f.path ∧ f'.symbols = f.symbols)
    (hfollowed : ∀ r ∈ f'.followed, r ∈ f.followed ∨ Handled plan m w f.path r) :
    Covers plan m entry symbols w' := by
  have hgrows : w.Grows w' := .of_eq hindex honce
  refine ⟨?_, ?_, ?_, ?_⟩
  · intro x hx r hr
    rw [hopened', List.mem_cons] at hx
    rcases hx with rfl | hx
    · show Handled plan m w' f'.path r
      rw [hkey.1]
      refine Handled.mono hgrows ?_
      rcases hfollowed r hr with hold | hnew
      · exact h.followed (f, current) (by simp [hopened]) r hold
      · exact hnew
    · exact (h.followed x (by simp [hopened, hx]) r hr).mono hgrows
  · intro p s hp
    rw [hindex] at hp
    rcases h.closed p s hp with ⟨x, hx, hpath, hsymbols⟩ | hclosed
    · rw [hopened, List.mem_cons] at hx
      rcases hx with rfl | hx
      · exact .inl ⟨(f', current'), by simp [hopened'], by rw [hkey.1]; exact hpath,
          by rw [hkey.2]; exact hsymbols⟩
      · exact .inl ⟨x, by simp [hopened', hx], hpath, hsymbols⟩
    · exact .inr fun r hr => (hclosed r hr).mono hgrows
  · intro p s hp
    rw [hindex] at hp
    exact (h.reached p s hp).mono hgrows
  · rw [honce, hindex]
    exact h.once

/-- An import of the innermost open file has been followed. -/
theorem Covers.add (h : Covers plan m entry symbols w) {f : Frame} {r r' : Reference}
    {rest : List (Frame × List Reference)} (hopened : w.opened = (f, [r]) :: rest)
    {problem : Option Diagnostic} (hopened' : w'.opened = (f.add r' problem, []) :: rest)
    (hindex : w'.index = w.index) (honce : w'.once = w.once)
    (hsame : r'.unresolved = r.unresolved) (hr : Handled plan m w f.path r) :
    Covers plan m entry symbols w' := by
  refine h.touch hopened hopened' hindex honce ⟨rfl, rfl⟩ ?_
  intro r₁ hr₁
  rcases List.mem_append.1 hr₁ with hold | hnew
  · exact .inl hold
  · obtain rfl := List.mem_singleton.1 hnew
    exact .inr (hr.of_unresolved hsame)

/-- Neither keys nor open files change. -/
theorem Covers.of_eq (h : Covers plan m entry symbols w) (hopened : w'.opened = w.opened)
    (hindex : w'.index = w.index) (honce : w'.once = w.once) : Covers plan m entry symbols w' := by
  have hgrows : w.Grows w' := .of_eq hindex honce
  refine ⟨?_, ?_, ?_, ?_⟩
  · intro x hx r hr
    exact (h.followed x (hopened ▸ hx) r hr).mono hgrows
  · intro p s hp
    rcases h.closed p s (hindex ▸ hp) with ⟨x, hx, hkey⟩ | hclosed
    · exact .inl ⟨x, hopened ▸ hx, hkey⟩
    · exact .inr fun r hr => (hclosed r hr).mono hgrows
  · intro p s hp
    exact (h.reached p s (hindex ▸ hp)).mono hgrows
  · rw [honce, hindex]
    exact h.once

theorem register_grows (w : Walk) (p : Path) (s : Symbols) (v : Variant) :
    w.Grows (w.register p s v) where
  index := fun h => (Index.contains_insert _ _ _ _ _ _).2 (.inr h)
  once := by
    intro q hq
    simp only [register, OnceTable.register]
    split
    · split
      · exact hq
      · exact (OrderedMap.contains_insert _ _ _ _).2 (.inr hq)
    · exact hq

/-- A key is registered that was not in the index and that an open file imports, if any is open. -/
theorem Covers.register (h : Covers plan m entry symbols w) {p : Path} {s : Symbols} {v : Variant}
    (hopened : w.opened = w.stack.map fun x => (x.1, [x.2]))
    (hnew : w.index.contains p s = false)
    (hreached : (p = entry ∧ s = symbols) ∨
      ∃ k : Path × Symbols, w.index.contains k.1 k.2 = true ∧ plan.Imports m k (p, s)) :
    Covers plan m entry symbols (w.register p s v) := by
  have hgrows := register_grows w p s v
  have hopened' : (w.register p s v).opened =
      (⟨p, s, v, v.references, [], []⟩, []) :: w.opened := by
    rw [hopened]
    rfl
  have hkeys : ∀ p' s', (w.register p s v).index.contains p' s' = true ↔
      (p'.components = p.components ∧ s' = s) ∨ w.index.contains p' s' = true := fun p' s' =>
    Index.contains_insert w.index p p' s s' v
  refine ⟨?_, ?_, ?_, ?_⟩
  · intro x hx r hr
    rw [hopened', List.mem_cons] at hx
    rcases hx with rfl | hx
    · simp at hr
    · exact (h.followed x hx r hr).mono hgrows
  · intro p' s' hp'
    rcases (hkeys p' s').1 hp' with ⟨hpath, hsymbols⟩ | hold
    · exact .inl ⟨(⟨p, s, v, v.references, [], []⟩, []), by simp [hopened'], hpath.symm,
        hsymbols.symm⟩
    · rcases h.closed p' s' hold with ⟨x, hx, hkey⟩ | hclosed
      · exact .inl ⟨x, by simp [hopened', hx], hkey⟩
      · exact .inr fun r hr => (hclosed r hr).mono hgrows
  · intro p' s' hp'
    rcases (hkeys p' s').1 hp' with ⟨hpath, rfl⟩ | hold
    · refine Reached.congr ?_ hpath.symm
      rcases hreached with ⟨rfl, rfl⟩ | ⟨k, hk, himports⟩
      · exact ⟨p, rfl, .refl⟩
      · exact ((h.reached k.1 k.2 hk).mono hgrows).imports (hgrows.index hk) himports
          ((hkeys p s').2 (.inl ⟨rfl, rfl⟩))
    · exact (h.reached p' s' hold).mono hgrows
  · intro q hq
    by_cases hold : w.once.contains q = true
    · obtain ⟨s', v', hv', himport⟩ := h.once q hold
      refine ⟨s', v', ?_, himport⟩
      have hother : ¬ (q.components = p.components ∧ s' = s) := by
        rintro ⟨hpath, rfl⟩
        have hcontains : w.index.contains q s' = true := Index.contains_iff.2 ⟨v', hv'⟩
        rw [Index.contains_congr hpath, hnew] at hcontains
        cases hcontains
      simp only [Walk.register, Index.get?_insert, if_neg hother, hv']
    · -- What is new among the files parsed once is the file just registered.
      simp only [Walk.register, OnceTable.register] at hq
      split at hq
      · rename_i himport
        split at hq
        · exact absurd hq hold
        · rcases (OrderedMap.contains_insert _ _ _ _).1 hq with hcompare | hold'
          · have hpath := Path.compare_eq_iff.1 hcompare
            refine ⟨s, v, ?_, himport⟩
            rw [Index.get?_congr hpath]
            exact Index.get?_insert_self _ _ _ _
          · exact absurd hold' hold
      · exact absurd hq hold

/-- The innermost open file has no imports left and is closed. Its variant may be replaced by one
that is parsed once where it is. -/
theorem Covers.close (h : Covers plan m entry symbols w) (hcoherent : w.Coherent plan)
    (huses : ∀ p s v, w.index.get? p s = some v → Uses plan m p s v) {f : Frame}
    {rest : List (Frame × List Reference)} (hopened : w.opened = (f, []) :: rest)
    (hopened' : w'.opened = rest) (done : f.pending = [])
    (hindex : w'.index = w.index ∨ ∃ v, v.importOnce = f.variant.importOnce ∧
      w'.index = w.index.insert f.path f.symbols v)
    (honce : w'.once = w.once) : Covers plan m entry symbols w' := by
  have hheld : w.index.get? f.path f.symbols = some f.variant :=
    hcoherent.held (f, []) (by simp [hopened])
  have hkeys : ∀ p s, w'.index.contains p s = true ↔ w.index.contains p s = true := by
    intro p s
    rcases hindex with hindex | ⟨v, _, hindex⟩
    · rw [hindex]
    · rw [hindex, Index.contains_insert]
      refine or_iff_right_of_imp ?_
      rintro ⟨hpath, rfl⟩
      rw [Index.contains_congr hpath]
      exact Index.contains_iff.2 ⟨_, hheld⟩
  have hgrows : w.Grows w' := ⟨fun hp => (hkeys _ _).2 hp, by rw [honce]; exact id⟩
  have himports : ∀ r ∈ plan.references m f.path f.symbols, Handled plan m w f.path r := by
    intro r hr
    have hbalanced := (hcoherent.innermost hopened).balanced
    rw [done, List.append_nil, List.append_nil, (huses _ _ _ hheld).references] at hbalanced
    obtain ⟨r', hr', rfl⟩ := List.mem_map.1 (hbalanced ▸ hr)
    exact (h.followed (f, []) (by simp [hopened]) r' hr').of_unresolved r'.unresolved_unresolved
  refine ⟨?_, ?_, ?_, ?_⟩
  · intro x hx r hr
    rw [hopened'] at hx
    exact (h.followed x (by simp [hopened, hx]) r hr).mono hgrows
  · intro p s hp
    rcases h.closed p s ((hkeys p s).1 hp) with ⟨x, hx, hpath, hsymbols⟩ | hclosed
    · rw [hopened, List.mem_cons] at hx
      rcases hx with rfl | hx
      · refine .inr fun r hr => ?_
        rw [← hsymbols, ← Plan.references_congr hpath] at hr
        have hhandled := (himports r hr).mono hgrows
        simpa only [Handled, Path.directory_congr hpath] using hhandled
      · exact .inl ⟨x, by rw [hopened']; exact hx, hpath, hsymbols⟩
    · exact .inr fun r hr => (hclosed r hr).mono hgrows
  · intro p s hp
    exact (h.reached p s ((hkeys p s).1 hp)).mono hgrows
  · intro q hq
    rw [honce] at hq
    obtain ⟨s, v, hv, himport⟩ := h.once q hq
    rcases hindex with hindex | ⟨v', himport', hindex⟩
    · rw [hindex]
      exact ⟨s, v, hv, himport⟩
    · rw [hindex]
      by_cases hkey : q.components = f.path.components ∧ s = f.symbols
      · refine ⟨s, v', by rw [Index.get?_insert, if_pos hkey], ?_⟩
        obtain ⟨hpath, rfl⟩ := hkey
        rw [Index.get?_congr hpath, hheld] at hv
        cases hv
        exact himport'.trans himport
      · exact ⟨s, v, by rw [Index.get?_insert, if_neg hkey, hv], himport⟩

/-- The importing files on the stack, each with the import that it is at, lead from the entry key
to the key of `p` and `s`. -/
def Linked (plan : Plan) (m : Memory) (entry : Path) (symbols : Symbols) :
    Path → Symbols → List (Frame × Reference) → Prop
  | p, s, [] => p = entry ∧ s = symbols
  | p, s, (f, r) :: rest =>
    s = r.active ∧ r.target? m.view.isFile f.path.directory plan.libraries = some p ∧
      Linked plan m entry symbols f.path f.symbols rest

/-- What the stage of a walk says of the import graph. -/
def Placed (plan : Plan) (m : Memory) (entry : Path) (symbols : Symbols) (w : Walk) : Prop :=
  match w.stage with
  | .enter p s => Linked plan m entry symbols p s w.stack
  | .stamp p s => Linked plan m entry symbols p s w.stack
  | .read p s _ => Linked plan m entry symbols p s w.stack
  | .follow f => Linked plan m entry symbols f.path f.symbols w.stack
  | .probe f r candidates => Linked plan m entry symbols f.path f.symbols w.stack ∧
      r.target? m.view.isFile f.path.directory plan.libraries = candidates.find? m.view.isFile
  | .leave none => ∃ p s, Linked plan m entry symbols p s w.stack ∧ w.index.contains p s = true
  | .leave (some _) => ∃ p s, Linked plan m entry symbols p s w.stack ∧ ¬ plan.Loads m.view p s
  | .ended .complete => w.index.contains entry symbols = true
  | .ended _ => True

/-- A walk explores the import graph. -/
structure Explores (plan : Plan) (m : Memory) (entry : Path) (symbols : Symbols) (w : Walk) :
    Prop where
  coherent : w.Coherent plan
  holds : w.Holds (Outdated plan m) (Uses plan m)
  covers : Covers plan m entry symbols w
  placed : Placed plan m entry symbols w

theorem Explores.loads (hw : Explores plan m entry symbols w) {p : Path} {s : Symbols}
    (hp : w.index.contains p s = true) : plan.Loads m.view p s := by
  obtain ⟨v, hv⟩ := Index.contains_iff.1 hp
  exact (hw.holds.index p s v hv).1

/-- A key that the stack leads to is the entry key or imported by a key of the index. -/
theorem Explores.imported (hw : Explores plan m entry symbols w) {p : Path} {s : Symbols}
    (hlinked : Linked plan m entry symbols p s w.stack) : (p = entry ∧ s = symbols) ∨
      ∃ k : Path × Symbols, w.index.contains k.1 k.2 = true ∧ plan.Imports m k (p, s) := by
  cases hstack : w.stack with
  | nil =>
      rw [hstack] at hlinked
      exact .inl hlinked
  | cons top rest =>
      obtain ⟨f, r⟩ := top
      rw [hstack] at hlinked
      obtain ⟨hactive, htarget, _⟩ := hlinked
      have hmem : (f, [r]) ∈ w.opened := w.stack_sublist_opened.subset (by simp [hstack])
      have hheld := hw.coherent.held _ hmem
      refine .inr ⟨(f.path, f.symbols), Index.contains_iff.2 ⟨_, hheld⟩, ?_⟩
      -- The import that the file is at is one that its text makes.
      have hr : r.unresolved ∈ plan.references m f.path f.symbols := by
        rw [← (hw.holds.index _ _ _ hheld).references, ← (hw.coherent.tracks _ hmem).balanced]
        simp
      exact ⟨r.unresolved, hr, hactive.symm, p, htarget, rfl⟩

/-- What a walk registers next is covered. -/
theorem Explores.register (hw : Explores plan m entry symbols w) {p : Path} {s : Symbols}
    (v : Variant) (hopened : w.opened = w.stack.map fun x => (x.1, [x.2]))
    (hnew : w.index.contains p s = false) (hlinked : Linked plan m entry symbols p s w.stack) :
    Covers plan m entry symbols (w.register p s v) :=
  hw.covers.register hopened hnew (hw.imported hlinked)

theorem move_covers (h : Move plan m.view false w w') (hw : Explores plan m entry symbols w) :
    Covers plan m entry symbols w' := by
  have hplaced := hw.placed
  cases h with
  | quitEnter _ quit => cases quit
  | quitFollow _ _ quit => cases quit
  | known stage | askTime stage | noTime stage | askText stage | noText stage | finish stage
  | fail stage => exact hw.covers.of_eq (by simp [opened, stage]) rfl rfl
  | reuseLive stage new | scanLive stage new =>
      simp only [Placed, stage] at hplaced
      refine (hw.register _ ?_ new hplaced).of_eq rfl rfl rfl
      simp [opened, stage]
  | reuseStored stage _ _ _ =>
      simp only [Placed, stage] at hplaced
      refine (hw.register _ ?_ (hw.coherent.new (.inl stage)) hplaced).of_eq rfl rfl rfl
      simp [opened, stage]
  | scanStored stage _ =>
      simp only [Placed, stage] at hplaced
      refine (hw.register _ ?_ (hw.coherent.new (.inr ⟨_, stage⟩)) hplaced).of_eq rfl rfl rfl
      simp [opened, stage]
  | look stage more =>
      exact hw.covers.touch (opened_follow stage) rfl rfl rfl ⟨rfl, rfl⟩ fun r hr => .inl hr
  | skip stage | descend stage =>
      exact hw.covers.touch (opened_probe stage) rfl rfl rfl ⟨rfl, rfl⟩ fun r hr => .inl hr
  | missing stage =>
      simp only [Placed, stage, List.find?_nil] at hplaced
      refine hw.covers.add (opened_probe stage) rfl rfl rfl rfl ?_
      intro q hq
      cases hplaced.2.symm.trans hq
  | @meet f r path rest stage found old =>
      simp only [Placed, stage, List.find?_cons_of_pos found] at hplaced
      refine hw.covers.add (opened_probe stage) rfl rfl rfl (redirected_unresolved _ _ _) ?_
      intro q hq
      cases hplaced.2.symm.trans hq
      rcases old with honce | hindex
      · exact .inr (.inr honce)
      · exact .inl hindex
  | keep stage done _ _ =>
      exact hw.covers.close hw.coherent hw.holds.index (opened_follow stage) rfl done (.inl rfl) rfl
  | @replace f stage done _ =>
      refine hw.covers.close hw.coherent hw.holds.index (opened_follow stage) rfl done (.inr ?_) rfl
      exact ⟨f.variant.withReferences ⟨plan.pass, w.made⟩ f.followed f.problems, rfl, rfl⟩
  | @back failure f r stack stage inner =>
      have hopened : w.opened = (f, [r]) :: stack.map fun x => (x.1, [x.2]) := by
        simp [opened, stage, inner]
      simp only [leave, inner]
      refine hw.covers.add hopened rfl rfl rfl (redirected_unresolved _ _ _) ?_
      intro q hq
      cases failure with
      | none =>
          simp only [Placed, stage, inner, Linked] at hplaced
          obtain ⟨p, s, ⟨rfl, htarget, _⟩, hcontains⟩ := hplaced
          cases htarget.symm.trans hq
          exact .inl hcontains
      | some e =>
          simp only [Placed, stage, inner, Linked] at hplaced
          obtain ⟨p, s, ⟨rfl, htarget, _⟩, hloads⟩ := hplaced
          cases htarget.symm.trans hq
          exact .inr (.inl hloads)
  | rest _ => exact hw.covers

theorem move_placed {cancelled : Bool} (h : Move plan m.view cancelled w w')
    (hw : Explores plan m entry symbols w) : Placed plan m entry symbols w' := by
  have hplaced := hw.placed
  cases h with
  | quitEnter _ _ => trivial
  | quitFollow _ _ _ => trivial
  | known stage old =>
      simp only [Placed, stage] at hplaced
      exact ⟨_, _, hplaced, old⟩
  | noTime stage answer =>
      simp only [Placed, stage] at hplaced
      refine ⟨_, _, hplaced, ?_⟩
      rw [Plan.loads_iff, hw.coherent.stored (.inl stage), answer]
      simp
  | noText stage answer =>
      simp only [Placed, stage] at hplaced
      refine ⟨_, _, hplaced, ?_⟩
      obtain ⟨htime, hchanged⟩ := hw.holds.dated stage
      rw [Plan.loads_iff, hw.coherent.stored (.inr ⟨_, stage⟩), htime, answer]
      simpa using hchanged
  | look stage _ =>
      simp only [Placed, stage] at hplaced
      exact ⟨hplaced, rfl⟩
  | skip stage absent =>
      simp only [Placed, stage] at hplaced
      refine ⟨hplaced.1, hplaced.2.trans ?_⟩
      simp [absent]
  | missing stage | meet stage =>
      simp only [Placed, stage] at hplaced
      exact hplaced.1
  | descend stage found _ _ =>
      simp only [Placed, stage, List.find?_cons_of_pos found] at hplaced
      exact ⟨rfl, hplaced.2, hplaced.1⟩
  | @keep f stage _ _ _ =>
      simp only [Placed, stage] at hplaced
      have hheld := hw.coherent.held (f, []) (by simp [opened_follow stage])
      exact ⟨_, _, hplaced, Index.contains_iff.2 ⟨_, hheld⟩⟩
  | replace stage _ _ =>
      simp only [Placed, stage] at hplaced
      exact ⟨_, _, hplaced, (Index.contains_insert _ _ _ _ _ _).2 (.inl ⟨rfl, rfl⟩)⟩
  | @back failure f r stack stage inner =>
      have hlinked : Linked plan m entry symbols f.path f.symbols stack := by
        cases failure with
        | none =>
            simp only [Placed, stage, inner, Linked] at hplaced
            obtain ⟨_, _, ⟨_, _, hrest⟩, _⟩ := hplaced
            exact hrest
        | some e =>
            simp only [Placed, stage, inner, Linked] at hplaced
            obtain ⟨_, _, ⟨_, _, hrest⟩, _⟩ := hplaced
            exact hrest
      simp only [leave, inner]
      exact hlinked
  | finish stage outer =>
      simp only [Placed, stage, outer, Linked] at hplaced
      obtain ⟨_, _, ⟨rfl, rfl⟩, hcontains⟩ := hplaced
      exact hcontains
  | fail _ _ => trivial
  | rest _ => exact hplaced
  | reuseLive stage | scanLive stage | askTime stage | reuseStored stage | askText stage
  | scanStored stage =>
      simp only [Placed, stage] at hplaced
      exact hplaced

theorem move_explores (hprevious : ∀ p s v, plan.previous.get? p s = some v → v.Fresh m p s)
    (h : Move plan m.view false w w') (hw : Explores plan m entry symbols w) :
    Explores plan m entry symbols w' where
  coherent := move_coherent h hw.coherent
  holds := move_holds h (upholds_uses hprevious) hw.coherent hw.holds
  covers := move_covers h hw
  placed := move_placed h hw

theorem run_explores (hprevious : ∀ p s v, plan.previous.get? p s = some v → v.Fresh m p s)
    (n : Nat) : Explores plan m entry symbols ((start entry symbols).run plan m.view n) :=
  run_preserves (fun hmove => move_explores hprevious hmove)
    ⟨coherent_start _ _ _, holds_start _ _, covers_start, rfl, rfl⟩ n

theorem Explores.contains_entry (hw : Explores plan m entry symbols w)
    (hend : w.ending? = some .complete) : w.index.contains entry symbols = true := by
  have hplaced := hw.placed
  simpa only [Placed, stage_of_ending hend] using hplaced

/-- In a complete walk every file is closed, so every import of a key is handled. -/
theorem Explores.handled (hw : Explores plan m entry symbols w)
    (hend : w.ending? = some .complete) {p : Path} {s : Symbols}
    (hp : w.index.contains p s = true) :
    ∀ r ∈ plan.references m p s, Handled plan m w p r := by
  have hstage : w.stage = .ended .complete := stage_of_ending hend
  have hopened : w.opened = [] := by simp [opened, hstage, hw.coherent.done hstage]
  rcases hw.covers.closed p s hp with ⟨x, hx, _⟩ | hclosed
  · simp [hopened] at hx
  · exact hclosed

/-- What a key of a complete walk imports is in the index, or cannot be loaded, or is parsed
once. -/
theorem Explores.imports (hw : Explores plan m entry symbols w)
    (hend : w.ending? = some .complete) {p q : Path} {s t : Symbols}
    (hp : w.index.contains p s = true) (himports : plan.Imports m (p, s) (q, t)) :
    w.index.contains q t = true ∨ ¬ plan.Loads m.view q t ∨
      ∃ u v, w.index.get? q u = some v ∧ v.importOnce = true := by
  obtain ⟨r, hr, rfl, q', htarget, hq⟩ := himports
  rw [← Index.contains_congr hq, ← Plan.loads_congr hq]
  rcases hw.handled hend hp r hr q' htarget with hindex | hloads | honce
  · exact .inl hindex
  · exact .inr (.inl hloads)
  · obtain ⟨u, v, hv, himport⟩ := hw.covers.once q' honce
    rw [Index.get?_congr hq] at hv
    exact .inr (.inr ⟨u, v, hv, himport⟩)

/-- Where no file is parsed once, the keys of a complete walk are those that can be loaded and are
reached through keys that can be loaded. -/
theorem Explores.contains_iff (hw : Explores plan m entry symbols w)
    (hend : w.ending? = some .complete)
    (hmany : ∀ p s v, w.index.get? p s = some v → v.importOnce = false) (p : Path)
    (s : Symbols) :
    w.index.contains p s = true ↔ plan.Loads m.view entry symbols ∧
      ∃ q : Path, q.components = p.components ∧ Relation.ReflTransGen
        (fun k k' => plan.Imports m k k' ∧ plan.Loads m.view k'.1 k'.2) (entry, symbols)
        (q, s) := by
  have hentry := hw.contains_entry hend
  constructor
  · intro hp
    obtain ⟨q, hq, hchain⟩ := hw.covers.reached p s hp
    refine ⟨hw.loads hentry, q, hq, Relation.ReflTransGen.mono ?_ _ _ hchain⟩
    rintro k k' ⟨_, hk', himports⟩
    exact ⟨himports, hw.loads hk'⟩
  · rintro ⟨_, q, hq, hchain⟩
    rw [← Index.contains_congr hq]
    generalize hk : (q, s) = k at hchain
    rw [show q = k.1 by rw [← hk], show s = k.2 by rw [← hk]]
    clear hk hq
    induction hchain with
    | refl => exact hentry
    | tail _ hstep ih =>
        obtain ⟨himports, hloaded⟩ := hstep
        rcases hw.imports hend ih himports with hindex | hfailed | ⟨u, v, hv, himport⟩
        · exact hindex
        · exact absurd hloaded hfailed
        · rw [hmany _ u v hv] at himport
          cases himport

end Graph

end Walk

namespace Indexer

/-- A pass explores exactly the import graph. When it comes to the end of its walk, and no file
changed since its turn came, its index has the entry key; every key of the index is reached from
the entry key by imports within the index; and what a key of the index imports is in the index, or
cannot be loaded, or has a variant in the index that is parsed once. So where none is parsed once,
the keys are exactly those that can be loaded and are reached from the entry key through such
keys. -/
theorem index_covers_import_graph (config : Config) (before during : List Action) (a : Action)
    (r : Running) (index : Index)
    (h : ((new config {}).run before).Executes a during r index) :
    let m := (((new config {}).run before).act a).files
    let entry := r.project.entry
    ∃ symbols, r.phase = .walking (Walk.start entry symbols) ∧
      index.contains entry symbols = true ∧
      (∀ p s, index.contains p s = true → ∃ q : Path, q.components = p.components ∧
        Relation.ReflTransGen (Walk.Via r.plan m index) (entry, symbols) (q, s)) ∧
      (∀ p s q t, index.contains p s = true → r.plan.Imports m (p, s) (q, t) →
        index.contains q t = true ∨ ¬ r.plan.Loads m.view q t ∨
          ∃ u v, index.get? q u = some v ∧ v.importOnce = true) ∧
      ((∀ p s v, index.get? p s = some v → v.importOnce = false) → ∀ p s,
        index.contains p s = true ↔ r.plan.Loads m.view entry symbols ∧
          ∃ q : Path, q.components = p.components ∧ Relation.ReflTransGen
            (fun k k' => r.plan.Imports m k k' ∧ r.plan.Loads m.view k'.1 k'.2)
            (entry, symbols) (q, s)) := by
  intro m entry
  have hfresh : ((new config {}).run before).Fresh :=
    fresh_run config (by intro p f hf; cases hf) before
  obtain ⟨ix₁, call, id, project, request, reached, turn, _, _, rfl⟩ := h.begins.begun
  obtain ⟨n, hend, rfl⟩ := h.run hfresh.sound rfl
  have hfresh₁ : ix₁.Fresh := by
    rcases reached with rfl | hevent
    · exact hfresh
    · exact event_fresh hevent hfresh
  have hfiles : m = ix₁.files := (waits_settings (.inr turn)).1
  have hprevious : ∀ p s v, (ix₁.planOf id project request).previous.get? p s = some v →
      v.Fresh m p s := by
    rw [hfiles]
    exact hfresh₁.holding.snapshot
  have hexplores : Walk.Explores _ m entry (ix₁.symbolsOf request) _ :=
    Walk.run_explores hprevious n
  refine ⟨ix₁.symbolsOf request, rfl, hexplores.contains_entry hend,
    hexplores.covers.reached, ?_, ?_⟩
  · intro p s q t hp himports
    exact hexplores.imports hend hp himports
  · intro hmany p s
    exact hexplores.contains_iff hend hmany p s

/-- Two files that import each other, one of them under a symbol of its own, and an import of
nothing. -/
theorem index_covers_import_graph_mutual :
    let ix := (new {} {}).run
      [.write ⟨"/p/main.asm"⟩ "#import \"a.asm\"\n#import \"gone.asm\"\n",
        .write ⟨"/p/a.asm"⟩ "#define A\n#import \"main.asm\"\n"]
    ∃ r index symbols,
      ix.Executes (.call (.initial ⟨"/p"⟩ {})) (List.replicate 34 .advance) r index ∧
      index.contains r.project.entry symbols = true ∧
      ∀ p s, index.contains p s = true → ∃ q : Path, q.components = p.components ∧
        Relation.ReflTransGen
        (Walk.Via r.plan (ix.act (.call (.initial ⟨"/p"⟩ {}))).files index)
          (r.project.entry, symbols) (q, s) := by
  intro ix
  obtain ⟨r, index, h⟩ : ∃ r index,
      ix.Executes (.call (.initial ⟨"/p"⟩ {})) (List.replicate 34 .advance) r index :=
    exists_executes (k := 0) (by decide +kernel) (by decide) (by decide +kernel)
      (by decide +kernel)
  obtain ⟨symbols, _, hentry, hreached, _⟩ := index_covers_import_graph _ _ _ _ _ _ h
  exact ⟨r, index, symbols, h, hentry, hreached⟩

end Indexer

end AsmIndex

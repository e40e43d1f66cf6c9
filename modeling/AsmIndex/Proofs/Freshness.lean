import AsmIndex.Proofs.RunningWalk
import AsmIndex.Proofs.ScanImports

/-!
Freshness. Every write gives a file a time that no file had before. So as long as a stored file
has the time that a variant carries, it has the text that the variant was made of, whatever was
written, removed and read in between.
-/

namespace AsmIndex

/-- The variant is what a text is under the symbols `s`, however its imports were found. -/
structure Variant.ScanOf (v : Variant) (text : String) (s : Symbols) : Prop where
  inSymbols : v.inSymbols = s
  tokens : v.tokens = (Source.scan text s).findings.tokens
  references : v.references.map Reference.unresolved =
    (Source.scan text s).findings.references
  outSymbols : v.outSymbols = (Source.scan text s).outSymbols
  importOnce : v.importOnce = (Source.scan text s).findings.importOnce
  diagnostics : v.diagnostics = (Source.scan text s).findings.diagnostics

theorem Walk.scanOf_variantOf (plan : Plan) (serial : Nat) (path : Path) (s : Symbols)
    (text : String) (modified : Nat) (live : Option String) :
    (variantOf plan serial path s text modified live).ScanOf text s :=
  ⟨rfl, rfl, Source.map_unresolved_scan text s, rfl, rfl, rfl⟩

theorem Walk.Frame.Tracks.scanOf {f : Walk.Frame} (h : f.Tracks []) (done : f.pending = [])
    {text : String} {s : Symbols} (hscan : f.variant.ScanOf text s) (id : VariantId) :
    (f.variant.withReferences id f.followed f.problems).ScanOf text s where
  inSymbols := hscan.inSymbols
  tokens := hscan.tokens
  references := by
    have hbalanced := h.balanced
    rw [done, List.append_nil, List.append_nil, hscan.references] at hbalanced
    exact hbalanced
  outSymbols := hscan.outSymbols
  importOnce := hscan.importOnce
  diagnostics := hscan.diagnostics

namespace Memory

theorem modified_eq_ok {m : Memory} {p : Path} {t : Nat} :
    m.view.modified p = .ok t ↔ ∃ f, m.files.get? p = some f ∧ f.modified = t := by
  simp only [view, modified?]
  cases m.files.get? p <;> simp

theorem read_eq_ok {m : Memory} {p : Path} {text : String} :
    m.view.read p = .ok text ↔
      m.failing.contains p = false ∧ ∃ f, m.files.get? p = some f ∧ f.content = text := by
  simp only [view, read]
  cases m.failing.contains p <;> cases m.files.get? p <;> simp

/-- No file carries a time that is yet to come. -/
def Stamped (m : Memory) : Prop := ∀ p f, m.files.get? p = some f → f.modified ≤ m.clock

/-- A file at `p` that was changed at the time `t` has the given text, now and ever after. -/
structure Pins (m : Memory) (p : Path) (t : Nat) (text : String) : Prop where
  past : t ≤ m.clock
  content : ∀ f, m.files.get? p = some f → f.modified = t → f.content = text

theorem Later.clock {m m' : Memory} (h : m.Later m') : m.clock ≤ m'.clock := by
  rcases h with hsame | ⟨a, hchange⟩
  · exact Nat.le_of_eq hsame.clock.symm
  · cases hchange with
    | write path content => exact Nat.le_succ _
    | _ => exact Nat.le_refl _

/-- After a change a file is there as before, or it was written at a new time. -/
theorem Later.get? {m m' : Memory} (h : m.Later m') {p : Path} {f : MemoryFile}
    (hf : m'.files.get? p = some f) :
    m.files.get? p = some f ∨ m.clock < f.modified ∧ f.modified ≤ m'.clock := by
  rcases h with hsame | ⟨a, hchange⟩
  · exact .inl (hsame.files ▸ hf)
  · cases hchange with
    | write path content =>
        simp only [write, OrderedMap.get?_insert] at hf
        split at hf
        · cases hf
          exact .inr ⟨Nat.lt_succ_self _, Nat.le_refl _⟩
        · exact .inl hf
    | remove path =>
        simp only [remove, OrderedMap.get?_erase] at hf
        split at hf
        · cases hf
        · exact .inl hf
    | failReads path => exact .inl hf
    | gate path => exact .inl hf
    | openGate => exact .inl hf

theorem Stamped.later {m m' : Memory} (hm : m.Stamped) (h : m.Later m') : m'.Stamped := by
  intro p f hf
  rcases h.get? hf with hold | ⟨_, hle⟩
  · exact Nat.le_trans (hm p f hold) h.clock
  · exact hle

theorem Pins.later {m m' : Memory} {p : Path} {t : Nat} {text : String} (hpins : m.Pins p t text)
    (h : m.Later m') : m'.Pins p t text where
  past := Nat.le_trans hpins.past h.clock
  content := by
    intro f hf htime
    rcases h.get? hf with hold | ⟨hlt, _⟩
    · exact hpins.content f hold htime
    · have hpast := hpins.past
      omega

theorem Pins.congr {m : Memory} {p q : Path} {t : Nat} {text : String} (hpins : m.Pins p t text)
    (hq : q.components = p.components) : m.Pins q t text := by
  refine ⟨hpins.past, ?_⟩
  rw [OrderedMap.get?_congr (Path.compare_eq_iff.2 hq)]
  exact hpins.content

end Memory

/-- The variant is what some text is under the symbols `s`: the live content that it carries, or the
text that the stored file has as long as it carries the time of the variant. -/
def Variant.Fresh (m : Memory) (p : Path) (s : Symbols) (v : Variant) : Prop :=
  ∃ text, v.ScanOf text s ∧ (∀ content, v.liveContent = some content → content = text) ∧
    (v.liveContent = none → m.Pins p v.modified text)

/-- A fresh variant of a live buffer is made of the content of the buffer. -/
theorem Variant.Fresh.of_buffer {m : Memory} {p : Path} {s : Symbols} {v : Variant}
    (h : v.Fresh m p s) {buffer : LiveBuffer} (hbuffer : v.FromBuffer buffer) :
    v.ScanOf buffer.content s := by
  obtain ⟨text, hscan, hlive, _⟩ := h
  rw [hlive buffer.content hbuffer.1]
  exact hscan

/-- A fresh variant of a stored file that was not changed since is made of the text of the file. -/
theorem Variant.Fresh.of_stored {m : Memory} {p : Path} {s : Symbols} {v : Variant}
    (h : v.Fresh m p s) {f : MemoryFile} (hf : m.files.get? p = some f)
    (hstored : v.FromStored f.modified) : v.ScanOf f.content s := by
  obtain ⟨text, hscan, _, hpins⟩ := h
  rw [(hpins hstored.1).content f hf hstored.2.symm]
  exact hscan

theorem upholds_fresh {plan : Plan} {m : Memory} (hm : m.Stamped)
    (hprevious : ∀ p s v, plan.previous.get? p s = some v → v.Fresh m p s) :
    Walk.Upholds plan m.view (fun _ _ t => t ≤ m.clock) (fun p s v => v.Fresh m p s) where
  congr := by
    rintro p q s v hq ⟨text, hscan, hlive, hpins⟩
    exact ⟨text, hscan, hlive, fun hnone => (hpins hnone).congr hq⟩
  reuseLive := fun _ hold _ => hprevious _ _ _ hold
  scanLive := by
    intro p s buffer serial _
    refine ⟨buffer.content, Walk.scanOf_variantOf _ _ _ _ _ _ _, ?_, ?_⟩
    · rintro content ⟨⟩
      rfl
    · rintro ⟨⟩
  reuseStored := fun _ _ hold _ => hprevious _ _ _ hold
  dated := by
    intro p s t htime _
    obtain ⟨f, hf, rfl⟩ := Memory.modified_eq_ok.1 htime
    exact hm p f hf
  scanStored := by
    intro p s t text serial _ hpast hread
    refine ⟨text, Walk.scanOf_variantOf _ _ _ _ _ _ _, by rintro content ⟨⟩,
      fun _ => ⟨hpast, ?_⟩⟩
    obtain ⟨_, f, hf, hcontent⟩ := Memory.read_eq_ok.1 hread
    intro f' hf' _
    cases hf.symm.trans hf'
    exact hcontent
  replace := by
    rintro f id htracks hdone ⟨text, hscan, hlive, hpins⟩
    exact ⟨text, htracks.scanOf hdone hscan id, hlive, hpins⟩

namespace Indexer

/-- All variants that an indexer holds are fresh. -/
structure Fresh (ix : Indexer) : Prop where
  sound : ix.Sound
  stamped : ix.files.Stamped
  holding : Holding (fun m _ _ t => t ≤ m.clock) (fun m p s v => v.Fresh m p s) ix

theorem lasting_fresh : Lasting (fun m _ _ t => t ≤ m.clock) (fun m p s v => v.Fresh m p s) where
  variant := by
    rintro m m' p s v hlater ⟨text, hscan, hlive, hpins⟩
    exact ⟨text, hscan, hlive, fun hnone => (hpins hnone).later hlater⟩
  date := fun hlater hpast => Nat.le_trans hpast hlater.clock

theorem event_fresh {ix ix' : Indexer} {a : Action} (h : Event ix a ix') (hix : ix.Fresh) :
    ix'.Fresh where
  sound := event_sound h hix.sound
  stamped := by
    rcases event_files h with hsame | hchange
    · exact hix.stamped.later (.inl hsame)
    · exact hix.stamped.later (.inr ⟨a, hchange⟩)
  holding := event_holding h hix.sound lasting_fresh
    (fun _ _ hprevious => upholds_fresh hix.stamped hprevious) hix.holding

theorem fresh_new (config : Config) {m : Memory} (hm : m.Stamped) : (new config m).Fresh where
  sound := sound_new config m
  stamped := hm
  holding := by
    refine ⟨?_, by simp [new], by simp [new]⟩
    intro p s v hv
    simp [new] at hv

/-- Whatever happens to files and passes, the variants that an indexer holds are fresh. -/
theorem fresh_run (config : Config) {m : Memory} (hm : m.Stamped) (actions : List Action) :
    ((new config m).run actions).Fresh :=
  run_preserves event_fresh (fresh_new config hm) actions

end Indexer

end AsmIndex

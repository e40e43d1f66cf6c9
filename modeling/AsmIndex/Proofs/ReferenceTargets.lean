import AsmIndex.Proofs.ImportGraph
import AsmIndex.Proofs.ImportOnce
import AsmIndex.Proofs.WalkMirror

/-!
Where imports lead. In the index of a pass, an import that was found leads to a variant of the
file that it was found at, unless that file cannot be loaded; the imports that were not found and
those that cannot be loaded are reported, each once and in order, and nothing else is.
-/

namespace AsmIndex

namespace Plan

/-- What is to be reported of an import: that it was found nowhere, or that the file cannot be
loaded. -/
def report? (plan : Plan) (view : FileView) (r : Reference) : Option Diagnostic :=
  match r.resolved, r.override with
  | none, _ => some (plan.missingImport r)
  | some _, some _ => none
  | some path, none =>
    match plan.load view 0 path r.active with
    | .ok _ => none
    | .error e => some (r.unreadable e)

section Report

variable {plan : Plan} {view : FileView} {r : Reference}

theorem report?_missing (h : r.resolved = none) :
    plan.report? view r = some (plan.missingImport r) := by
  simp [report?, h]

theorem report?_redirected {path : Path} {o : Symbols} (h : r.resolved = some path)
    (ho : r.override = some o) : plan.report? view r = none := by
  simp [report?, h, ho]

theorem report?_loads {path : Path} (h : r.resolved = some path)
    (hloads : plan.Loads view path r.active) : plan.report? view r = none := by
  obtain ⟨v, hv⟩ := hloads
  cases ho : r.override <;> simp [report?, h, ho, hv]

theorem report?_unreadable {path : Path} {e : FileError} (h : r.resolved = some path)
    (ho : r.override = none) (hload : plan.load view 0 path r.active = .error e) :
    plan.report? view r = some (r.unreadable e) := by
  simp [report?, h, ho, hload]

/-- A report stands where the import stands. -/
theorem report?_at {d : Diagnostic} (h : plan.report? view r = some d) :
    d.line = r.line ∧ d.column = r.column := by
  unfold report? at h
  split at h
  · cases h
    exact ⟨rfl, rfl⟩
  · cases h
  · split at h
    · cases h
    · cases h
      exact ⟨rfl, rfl⟩

end Report

end Plan

namespace Walk

/-- An import of the file at `p` was resolved to the file that it means, and where it is not
redirected, that file is in the index or cannot be loaded. -/
structure Lands (plan : Plan) (m : Memory) (w : Walk) (p : Path) (r : Reference) : Prop where
  target : r.resolved = r.target? m.view.isFile p.directory plan.libraries
  had : ∀ q, r.resolved = some q → r.override = none →
    w.index.contains q r.active = true ∨ ∃ e, plan.load m.view 0 q r.active = .error e

/-- Imports of the file at `p` lead where they should, and the problems are those to be reported. -/
def Reported (plan : Plan) (m : Memory) (w : Walk) (p : Path) (rs : List Reference)
    (ds : List Diagnostic) : Prop :=
  (∀ r ∈ rs, Lands plan m w p r) ∧ ds = rs.filterMap (plan.report? m.view)

/-- The imports that lead to the files further in are resolved to the files that they mean; and a
file that could not be had is one that cannot be loaded and is not parsed once. -/
structure Sights (plan : Plan) (m : Memory) (entry : Path) (symbols : Symbols) (w : Walk) :
    Prop where
  stack : ∀ x ∈ w.stack,
    x.2.resolved = x.2.target? m.view.isFile x.1.path.directory plan.libraries
  failed : ∀ {e}, w.stage = .leave (some e) →
    ∃ p s, Linked plan m entry symbols p s w.stack ∧
    plan.load m.view 0 p s = .error e ∧ w.once.contains p = false

section Reported

variable {plan : Plan} {m : Memory} {entry : Path} {symbols : Symbols} {w w' : Walk}

theorem target?_resolveTo (r : Reference) (path : Path) :
    (r.resolveTo path).target? = r.target? := by
  rw [← Reference.target?_unresolved, Reference.unresolved_resolveTo,
    Reference.target?_unresolved]

theorem move_sights (h : Move plan m.view false w w') (hexplores : Explores plan m entry symbols w)
    (honly : w.OnceOnly) (hw : Sights plan m entry symbols w) :
    Sights plan m entry symbols w' := by
  have hplaced := hexplores.placed
  cases h with
  | noTime stage answer =>
      refine ⟨hw.stack, ?_⟩
      rintro _ ⟨⟩
      simp only [Placed, stage] at hplaced
      exact ⟨_, _, hplaced, Plan.load_noTime (hexplores.coherent.stored (.inl stage)) answer,
        honly.awaits (.inr (.inl stage))⟩
  | @noText path s time e stage answer =>
      refine ⟨hw.stack, ?_⟩
      rintro _ ⟨⟩
      simp only [Placed, stage] at hplaced
      have hasks : w.AsksFor path s := .inr ⟨_, stage⟩
      obtain ⟨htime, hchanged⟩ := hexplores.holds.dated stage
      refine ⟨_, _, hplaced, ?_, honly.awaits (.inr hasks)⟩
      rw [Plan.load_read (hexplores.coherent.stored hasks) htime hchanged, answer]
      rfl
  | @descend f r path rest stage found =>
      simp only [Placed, stage, List.find?_cons_of_pos found] at hplaced
      refine ⟨?_, by simp⟩
      intro x hx
      rcases List.mem_cons.1 hx with rfl | hx
      · rw [target?_resolveTo]
        exact hplaced.2.symm
      · exact hw.stack x hx
  | back stage inner =>
      refine ⟨?_, by simp [leave, inner]⟩
      intro x hx
      exact hw.stack x (by simp_all [leave])
  | rest _ => exact hw
  | _ => exact ⟨hw.stack, by simp_all [reuse, tokenize, register, missing]⟩

/-- An import that was found at a file which is parsed once or in the index leads where it
should. -/
theorem Explores.found (hw : Explores plan m entry symbols w) {p path : Path} {r : Reference}
    (hresolved : r.resolved = some path)
    (htarget : r.target? m.view.isFile p.directory plan.libraries = some path)
    (hold : w.once.get? path = none → w.index.contains path r.active = true) :
    Lands plan m w p (w.redirected r path) ∧
      plan.report? m.view (w.redirected r path) = none := by
  cases honce : w.once.get? path with
  | none =>
      have hsame : w.redirected r path = r := by simp [redirected, honce]
      have hcontains := hold honce
      rw [hsame]
      refine ⟨⟨hresolved.trans htarget.symm, ?_⟩,
        Plan.report?_loads hresolved (hw.loads hcontains)⟩
      intro q hq _
      cases hresolved.symm.trans hq
      exact .inl hcontains
  | some e =>
      have hsame : w.redirected r path = r.redirect e.symbols := by simp [redirected, honce]
      rw [hsame]
      refine ⟨⟨hresolved.trans htarget.symm, ?_⟩, Plan.report?_redirected hresolved rfl⟩
      rintro _ _ ⟨⟩

/-- What comes of an import leads where it should, and its problem is the one to be reported. -/
theorem Concludes.reported {f : Frame} {r r' : Reference} {problem : Option Diagnostic}
    (h : Concludes plan m.view w f r r' problem) (hexplores : Explores plan m entry symbols w)
    (haims : w.Aims) (hw : Sights plan m entry symbols w) :
    Lands plan m w f.path r' ∧ plan.report? m.view r' = problem := by
  have hplaced := hexplores.placed
  cases h with
  | missing stage =>
      simp only [Placed, stage, List.find?_nil] at hplaced
      have hresolved : r.resolved = none := by rw [← haims.probe stage]; rfl
      refine ⟨⟨hresolved.trans hplaced.2.symm, ?_⟩, Plan.report?_missing hresolved⟩
      intro q hq
      cases hresolved.symm.trans hq
  | @meet path rest stage found old =>
      simp only [Placed, stage, List.find?_cons_of_pos found] at hplaced
      refine hexplores.found (r := r.resolveTo path) rfl ?_ ?_
      · rw [target?_resolveTo]
        exact hplaced.2
      · intro hnone
        exact old.resolve_left (by simp [OrderedMap.contains, hnone])
  | @back failure stack stage inner =>
      obtain ⟨path, hpath⟩ := haims.stack (f, r) (by simp [inner])
      have hresolved : r.resolved = some path := congrArg Reference.resolved hpath
      have hplain : r.override = none := congrArg Reference.override hpath
      have htarget := (hw.stack (f, r) (by simp [inner])).symm.trans hresolved
      rw [hresolved, Option.getD_some]
      cases failure with
      | none =>
          simp only [Placed, stage, inner, Linked] at hplaced
          obtain ⟨p, s, ⟨rfl, hp, _⟩, hcontains⟩ := hplaced
          cases htarget.symm.trans hp
          exact hexplores.found hresolved htarget fun _ => hcontains
      | some e =>
          obtain ⟨p, s, hlinked, hload, hmany⟩ := hw.failed stage
          simp only [inner, Linked] at hlinked
          obtain ⟨rfl, hp, _⟩ := hlinked
          cases htarget.symm.trans hp
          have hsame : w.redirected r path = r := by
            have hnone : w.once.get? path = none := by simpa [OrderedMap.contains] using hmany
            simp [redirected, hnone]
          rw [hsame]
          refine ⟨⟨hresolved.trans htarget.symm, ?_⟩,
            Plan.report?_unreadable hresolved hplain hload⟩
          intro q hq _
          cases hresolved.symm.trans hq
          exact .inr ⟨e, hload⟩

theorem Lands.congr {p q : Path} {r : Reference} (h : Lands plan m w p r)
    (hq : q.components = p.components) : Lands plan m w q r := by
  refine ⟨?_, h.had⟩
  rw [Path.directory_congr hq]
  exact h.target

theorem keeps_reported (h : Move plan m.view false w w')
    (hexplores : Explores plan m entry symbols w) (haims : w.Aims) (hcanonical : w.Canonical)
    (hw : Sights plan m entry symbols w) : Keeps plan m.view (Reported plan m) w w' := by
  have hmono : ∀ {p rs ds}, Reported plan m w p rs ds → Reported plan m w' p rs ds := by
    rintro p rs ds ⟨hlands, hds⟩
    refine ⟨fun r hr => ⟨(hlands r hr).target, fun q hq hplain => ?_⟩, hds⟩
    exact ((hlands r hr).had q hq hplain).imp_left (move_contains h)
  refine ⟨?_, fun p => ⟨by simp, rfl⟩, hmono, ?_, ?_⟩
  · rintro p q rs ds hq ⟨hlands, hds⟩
    exact ⟨fun r hr => (hlands r hr).congr hq, hds⟩
  · rintro f r r' problem hconcludes ⟨hlands, hds⟩
    obtain ⟨hland, hreport⟩ := hconcludes.reported hexplores haims hw
    refine hmono ⟨?_, ?_⟩
    · intro x hx
      rcases List.mem_append.1 hx with hx | hx
      · exact hlands x hx
      · obtain rfl := List.mem_singleton.1 hx
        exact hland
    · cases problem <;> simp [List.filterMap_append, ← hds, hreport]
  · intro f stage hsame hf
    have hreferences := hexplores.coherent.followed_eq hcanonical stage hsame
    rw [← hreferences]
    exact hmono hf

theorem run_reported (hfresh : ∀ p s v, plan.previous.get? p s = some v → v.Fresh m p s)
    (hcanonical : ∀ p s v, plan.previous.get? p s = some v →
      ∀ r ∈ v.references, r.Canonical)
    (entry : Path) (symbols : Symbols) (n : Nat) :
    Sights plan m entry symbols ((start entry symbols).run plan m.view n) ∧
      ((start entry symbols).run plan m.view n).Settles (Reported plan m) := by
  induction n with
  | zero => exact ⟨⟨by simp [run, start], by simp [run, start]⟩, settles_start _ _⟩
  | succ n ih =>
      obtain ⟨hsights, hsettles⟩ := ih
      have hexplores : Explores plan m entry symbols _ := run_explores hfresh n
      have hparses := parsesOnce_of_proceeds (run_proceeds plan m.view (start entry symbols) n)
        (run_valid rfl n)
      have hmove := step_move plan m.view false ((start entry symbols).run plan m.view n)
      rw [run_succ]
      refine ⟨move_sights hmove hexplores hparses.only hsights, ?_⟩
      refine move_settles hmove hexplores.coherent ?_ ?_ hsettles
      · exact keeps_reported hmove hexplores hparses.aims
          (run_canonical hcanonical _ _ _ n) hsights
      · rw [← run_succ]
        exact run_valid rfl (n + 1)

/-- A text makes at most one import in a line. -/
theorem Uses.eq_of_line {p : Path} {s : Symbols} {v : Variant} (h : Uses plan m p s v)
    {r r' : Reference} (hr : r ∈ v.references) (hr' : r' ∈ v.references)
    (hline : r.line = r'.line) : r = r' := by
  obtain ⟨_, text, _, hscan⟩ := h
  have hlines := Source.pairwise_line_scan text s
  rw [← hscan.references, List.pairwise_map] at hlines
  have hnodup : (v.references.map Reference.line).Nodup :=
    List.pairwise_map.2 (hlines.imp fun hlt => Nat.ne_of_lt hlt)
  exact List.inj_on_of_nodup_map hnodup hr hr' hline

/-- An import that was found leads to a variant, or it is reported that its file cannot be had,
and not both. -/
theorem Explores.xor_unreadable (hw : Explores plan m entry symbols w)
    (hparsed : w.index.ParsedOnce) {p : Path} {s : Symbols} {v : Variant}
    (hv : w.index.get? p s = some v)
    (hreported : Reported plan m w p v.references v.resolutionDiagnostics) {r : Reference}
    (hr : r ∈ v.references) {t : Path} (ht : r.resolved = some t) :
    Xor (∃ u q, w.index.follow r = some u ∧ w.index.get? t q = some u)
      (∃ d ∈ v.resolutionDiagnostics, d.code = .readFailure ∧ d.severity = .error ∧
        d.line = r.line ∧ d.column = r.column) := by
  obtain ⟨hlands, hds⟩ := hreported
  -- What is reported in the line of an import is reported of the import.
  have hreport : ∀ d ∈ v.resolutionDiagnostics, d.line = r.line →
      plan.report? m.view r = some d := by
    intro d hd hline
    rw [hds] at hd
    obtain ⟨r', hr', hreport⟩ := List.mem_filterMap.1 hd
    have hsame := (hw.holds.index p s v hv).eq_of_line hr' hr
      ((Plan.report?_at hreport).1.symm.trans hline)
    rwa [hsame] at hreport
  cases ho : r.override with
  | some o =>
      obtain ⟨q, t', u, hq, hu, _, _, hfollow, _⟩ := hparsed.redirected p s v hv r hr o ho
      cases ht.symm.trans hq
      refine .inl ⟨⟨u, t', hfollow, hu⟩, ?_⟩
      rintro ⟨d, hd, _, _, hline, _⟩
      cases (Plan.report?_redirected ht ho).symm.trans (hreport d hd hline)
  | none =>
      have hfollow : w.index.follow r = w.index.get? t r.active := by
        simp only [Index.follow, ht, ho, Index.get?]
        cases w.index.files.get? t <;> rfl
      rcases (hlands r hr).had t ht ho with hcontains | ⟨e, hload⟩
      · obtain ⟨u, hu⟩ := Index.contains_iff.1 hcontains
        refine .inl ⟨⟨u, r.active, hfollow.trans hu, hu⟩, ?_⟩
        rintro ⟨d, hd, _, _, hline, _⟩
        cases (Plan.report?_loads ht (hw.loads hcontains)).symm.trans (hreport d hd hline)
      · refine .inr ⟨⟨r.unreadable e, ?_, rfl, rfl, rfl, rfl⟩, ?_⟩
        · rw [hds]
          exact List.mem_filterMap.2 ⟨r, hr, Plan.report?_unreadable ht ho hload⟩
        · rintro ⟨u, q, hu, _⟩
          obtain ⟨v', hv'⟩ := hw.loads (Index.contains_iff.2 ⟨u, hfollow.symm.trans hu⟩)
          cases hload.symm.trans hv'

end Reported

end Walk

namespace Indexer

/-- References never dangle. Where a pass comes to the end of its walk and no file changed since
its turn came, every import of every variant in its index, new or taken over, is resolved to the
file that it means. One that is not found is reported with the severity of the settings; one that
is found leads to a variant of the file, or it is reported that the file cannot be had, and not
both. The diagnostics of the imports of a variant are these reports, one for each such import and
in the order of the imports. -/
theorem references_never_dangle (config : Config) (before during : List Action) (a : Action)
    (r : Running) (index : Index)
    (h : ((new config {}).run before).Executes a during r index) :
    let ix := ((new config {}).run before).act a
    ∀ p s v, index.get? p s = some v →
      v.resolutionDiagnostics = v.references.filterMap (r.plan.report? ix.files.view) ∧
      ∀ ref ∈ v.references,
        ref.resolved = ref.target? ix.files.view.isFile p.directory r.plan.libraries ∧
        (ref.resolved = none → ref.override = none ∧ ∃ d ∈ v.resolutionDiagnostics,
          d.code = .unresolvedImport ∧ d.severity = ix.config.unresolvedImportSeverity ∧
            d.line = ref.line ∧ d.column = ref.column) ∧
        ∀ t, ref.resolved = some t →
          Xor (∃ u q, index.follow ref = some u ∧ index.get? t q = some u)
            (∃ d ∈ v.resolutionDiagnostics, d.code = .readFailure ∧ d.severity = .error ∧
              d.line = ref.line ∧ d.column = ref.column) := by
  intro ix p s v hv
  have hfresh : ((new config {}).run before).Fresh :=
    fresh_run config (by intro p f hf; cases hf) before
  obtain ⟨symbols, phase⟩ := h.begins.phase
  obtain ⟨n, hend, rfl⟩ := h.run hfresh.sound phase
  have hprevious : r.plan.previous = ix.snapshot.index :=
    (event_sound (act_event _ a) hfresh.sound).grounded.previous h.turn phase
  have hseverity := h.begins.severity
  have hcanonical := (canonical_run config {} (before ++ [a])).snapshot
  rw [run_append] at hcanonical
  have hix : ∀ p s v, r.plan.previous.get? p s = some v → v.Fresh ix.files p s := by
    rw [hprevious]
    exact (event_fresh (act_event _ a) hfresh).holding.snapshot
  have hexplores : Walk.Explores r.plan ix.files r.project.entry symbols _ :=
    Walk.run_explores hix n
  have hparses := Walk.parsesOnce_of_proceeds (Walk.run_proceeds r.plan ix.files.view
    (Walk.start r.project.entry symbols) n) (Walk.run_valid rfl n)
  have hsettles := (Walk.run_reported hix (hprevious ▸ hcanonical) r.project.entry symbols n).2
  have hreported := hsettles.complete hexplores.coherent hend hv
  refine ⟨hreported.2, fun ref href => ⟨(hreported.1 ref href).target, ?_, ?_⟩⟩
  · intro hnone
    refine ⟨?_, r.plan.missingImport ref, ?_, rfl, hseverity, rfl, rfl⟩
    · by_contra hoverride
      obtain ⟨o, ho⟩ := Option.ne_none_iff_exists'.1 hoverride
      obtain ⟨q, _, hq, _⟩ :=
        hparses.redirects.complete hexplores.coherent hend hv ref href o ho
      cases hnone.symm.trans hq
    · rw [hreported.2]
      exact List.mem_filterMap.2 ⟨ref, href, Plan.report?_missing hnone⟩
  · intro t ht
    exact hexplores.xor_unreadable (hparses.index hend) hv hreported href ht

/-- A pass over an import that is found, one that is found nowhere and one whose reads fail. -/
def mixedImports : List Action :=
  [.write ⟨"main.asm"⟩ "#import \"a\"\n#import \"c\"\n#import \"b\"\n", .write ⟨"a"⟩ "",
    .write ⟨"b"⟩ "", .failReads ⟨"b"⟩, .call (.initial ⟨""⟩ {})] ++
    List.replicate 23 .advance

/-- A second pass takes over the variants of the first and reports two of three imports again. -/
theorem references_never_dangle_reused :
    ∃ r index v, ((new {} {}).run mixedImports).Executes (.call (.parse {}))
        (List.replicate 19 .advance) r index ∧
      index.get? ⟨"main.asm"⟩ Symbols.empty = some v ∧ v.resolutionDiagnostics.length = 2 ∧
      v.resolutionDiagnostics = v.references.filterMap (r.plan.report?
        (((new {} {}).run mixedImports).act (.call (.parse {}))).files.view) := by
  obtain ⟨r, index, hwalked, h⟩ : ∃ r index,
      ((((new {} {}).run mixedImports).act (.call (.parse {}))).run
        (List.replicate 19 .advance)).walked? = some (r.call, index) ∧
      ((new {} {}).run mixedImports).Executes (.call (.parse {})) (List.replicate 19 .advance) r
        index :=
    exists_executes_walked (k := 1) (by decide +kernel) (by decide) (by decide +kernel)
      (by decide +kernel)
  have hentry : (((((new {} {}).run mixedImports).act (.call (.parse {}))).run
      (List.replicate 19 .advance)).walked?.any fun x =>
        (x.2.get? ⟨"main.asm"⟩ Symbols.empty).any fun v =>
          v.resolutionDiagnostics.length == 2) =
      true := by
    decide +kernel
  rw [hwalked, Option.any_some] at hentry
  obtain ⟨v, hv, hlength⟩ := (Option.any_eq_true _ _).1 hentry
  have hdangle := references_never_dangle {} mixedImports _ _ r index h
  exact ⟨r, index, v, h, hv, by simpa using hlength, (hdangle _ _ v hv).1⟩

end Indexer

end AsmIndex

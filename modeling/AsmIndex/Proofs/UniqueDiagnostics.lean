import AsmIndex.Proofs.FollowedImports
import AsmIndex.Proofs.ImportGraph
import AsmIndex.Proofs.NormalForms
import AsmIndex.Proofs.ScanRemarks

/-!
The diagnostics of a first pass. A pass that takes nothing over makes all variants of a file of
one text, and an import that stands at a place of the file comes to the same under all symbols. So
at one place of a file there is one diagnostic, however many variants have it.
-/

namespace AsmIndex

/-- A path in normal form, or the entry path, is told by its components. -/
theorem Path.eq_of_named {entry p q : Path} (hentry : entry.normalized = entry)
    (hp : p = entry ∨ p.IsNormal) (hq : q = entry ∨ q.IsNormal)
    (h : p.components = q.components) :
    p = q := by
  have hmixed : ∀ {q : Path}, q.IsNormal → q.components = entry.components → q = entry := by
    rintro q ⟨q₀, hq₀⟩ heq
    have hnormal : entry.normal? = some q := by
      rw [Path.normal?_congr (q := q), Path.normal?_normal? hq₀]
      simp only [Path.normalComponents, heq]
    rw [← hentry, Path.normalized, hnormal, Option.getD_some]
  rcases hp with rfl | hp <;> rcases hq with rfl | hq
  · rfl
  · exact (hmixed hq h.symm).symm
  · exact hmixed hp h
  · exact hp.eq_of_components hq h

namespace Plan

/-- The text that a first pass has of a file: that of its live buffer, or the stored one. -/
def content? (plan : Plan) (view : FileView) (p : Path) : Option String :=
  match plan.live.get? p with
  | some buffer => some buffer.content
  | none => (view.read p).toOption

/-- Why a first pass cannot have a file. -/
def failure? (plan : Plan) (view : FileView) (p : Path) : Option FileError :=
  match plan.live.get? p, view.modified p, view.read p with
  | some _, _, _ => none
  | none, .error e, _ => some e
  | none, .ok _, .error e => some e
  | none, .ok _, .ok _ => none

/-- The problem of an import of the file at `p` in a first pass. -/
def problem? (plan : Plan) (view : FileView) (p : Path) (r : Reference) : Option Diagnostic :=
  match r.target? view.isFile p.directory plan.libraries with
  | none => some (plan.missingImport r)
  | some q => (plan.failure? view q).map (r.resolveTo q).unreadable

/-- What there is to say at a place of the file at `p`, if anything is said there. -/
def diagnosticAt (plan : Plan) (view : FileView) (p : Path) (line column : Nat) :
    Option Diagnostic :=
  (plan.content? view p).bind fun text =>
    match Source.remark text line column with
    | some (.note d) => some d
    | some (.imports raw) => plan.problem? view p { line, column, raw, active := Symbols.empty }
    | none => none

variable {plan : Plan} {view : FileView}

theorem problem?_congr {p q : Path} (hp : q.components = p.components) {r r' : Reference}
    (hline : r'.line = r.line) (hcolumn : r'.column = r.column) (hraw : r'.raw = r.raw) :
    plan.problem? view q r' = plan.problem? view p r := by
  have htarget : r'.target? view.isFile q.directory plan.libraries =
      r.target? view.isFile p.directory plan.libraries := by
    unfold Reference.target? Reference.candidates Reference.normalized
    rw [hraw, Path.directory_congr hp]
  unfold problem?
  rw [htarget]
  split
  · simp only [missingImport, hline, hcolumn, hraw]
  · have hunreadable : ∀ q : Path, (r'.resolveTo q).unreadable = (r.resolveTo q).unreadable := by
      intro q
      funext e
      simp only [Reference.unreadable, Reference.resolveTo, hline, hcolumn]
    rw [hunreadable]

theorem problem?_unresolved {p : Path} {r r' : Reference} (h : r'.unresolved = r.unresolved) :
    plan.problem? view p r' = plan.problem? view p r :=
  problem?_congr rfl (congrArg Reference.line h :) (congrArg Reference.column h :)
    (congrArg Reference.raw h :)

theorem problem?_at {p : Path} {r : Reference} {d : Diagnostic}
    (h : plan.problem? view p r = some d) : d.line = r.line ∧ d.column = r.column := by
  unfold problem? at h
  split at h
  · cases h
    exact ⟨rfl, rfl⟩
  · obtain ⟨e, _, rfl⟩ := Option.map_eq_some_iff.1 h
    exact ⟨rfl, rfl⟩

end Plan

namespace Walk

/-- A variant at `p` is made of the text of the file at `p`, whose path is the entry path or in
normal form. -/
structure Reads (plan : Plan) (view : FileView) (entry p : Path) (s : Symbols) (v : Variant) :
    Prop where
  place : v.path.components = p.components
  named : v.path = entry ∨ v.path.IsNormal
  scan : ∃ text, plan.content? view v.path = some text ∧ v.ScanOf text s

/-- A walk comes only to files whose path is the entry path or in normal form, and makes their
variants of their texts. -/
structure Surveys (plan : Plan) (view : FileView) (entry : Path) (w : Walk) : Prop where
  comes : ∀ {p s}, w.ComesTo p s → p = entry ∨ p.IsNormal
  reads : ∀ p s v, w.index.get? p s = some v → Reads plan view entry p s v

section Surveys

variable {plan : Plan} {view : FileView} {cancelled : Bool} {entry : Path} {w w' : Walk}

theorem surveys_start (entry : Path) (symbols : Symbols) :
    (start entry symbols).Surveys plan view entry where
  comes := by
    intro p s h
    obtain ⟨rfl, _⟩ : entry = p ∧ symbols = s := by simpa [ComesTo, AsksFor, start] using h
    exact .inl rfl
  reads := by simp [start]

theorem Registers.reads {p : Path} {s : Symbols} {v : Variant} (h : Registers plan view w p s v)
    (hfirst : ∀ p s, plan.previous.get? p s = none) (hcoherent : w.Coherent plan)
    (hw : w.Surveys plan view entry) : Reads plan view entry p s v := by
  cases h with
  | reuseLive _ _ previous _ => cases (hfirst p s).symm.trans previous
  | reuseStored _ _ previous _ => cases (hfirst p s).symm.trans previous
  | @scanLive buffer stage live _ =>
      refine ⟨rfl, hw.comes (.inl stage), buffer.content, ?_, scanOf_variantOf _ _ _ _ _ _ _⟩
      simp [Plan.content?, variantOf, live]
  | @scanStored time text stage answer =>
      have hasks : w.AsksFor p s := .inr ⟨time, stage⟩
      refine ⟨rfl, hw.comes (.inr hasks), text, ?_, scanOf_variantOf _ _ _ _ _ _ _⟩
      simp [Plan.content?, variantOf, hcoherent.stored hasks, answer, Except.toOption]

theorem Closes.reads {f : Frame} {v : Variant} (h : Closes plan w f v) (hcoherent : w.Coherent plan)
    (hw : w.Surveys plan view entry) : Reads plan view entry f.path f.symbols v := by
  cases h with
  | keep stage _ _ _ =>
      exact hw.reads _ _ _ (hcoherent.held (f, []) (by simp [opened_follow stage]))
  | replace stage done _ =>
      have hopened := opened_follow stage
      have hold := hw.reads _ _ _ (hcoherent.held (f, []) (by simp [hopened]))
      obtain ⟨text, hcontent, hscan⟩ := hold.scan
      exact ⟨hold.place, hold.named, text, hcontent,
        (hcoherent.innermost hopened).scanOf done hscan _⟩

theorem move_surveys (h : Move plan view cancelled w w')
    (hfirst : ∀ p s, plan.previous.get? p s = none) (hcoherent : w.Coherent plan)
    (hw : w.Surveys plan view entry) : w'.Surveys plan view entry where
  comes := by
    intro p s hcomes
    rcases move_comesTo h hcomes with hold | ⟨f, r, rest, stage⟩
    · exact hw.comes hold
    · exact .inr (hcoherent.normal stage p List.mem_cons_self)
  reads := by
    have hinsert : ∀ {p s v}, Reads plan view entry p s v → ∀ q t u,
        (w.index.insert p s v).get? q t = some u → Reads plan view entry q t u :=
      Index.forall_insert (P := Reads plan view entry)
        (fun hq hreads => ⟨hreads.place.trans hq.symm, hreads.named, hreads.scan⟩) hw.reads
    rcases move_index h with
      hindex | ⟨p, s, v, hregisters, hindex⟩ | ⟨f, v, hcloses, hindex⟩
    · rw [hindex]
      exact hw.reads
    · rw [hindex]
      exact hinsert (hregisters.reads hfirst hcoherent hw)
    · rw [hindex]
      exact hinsert (hcloses.reads hcoherent hw)

end Surveys

/-- A walk looks for an import among the places that are left of those where it may be; the
imports that lead to the files further in were found, and a file that was not had cannot be
had. -/
structure Seeks (plan : Plan) (view : FileView) (w : Walk) : Prop where
  probe : ∀ {f r cs}, w.stage = .probe f r cs →
    r.target? view.isFile f.path.directory plan.libraries = cs.find? view.isFile
  stack : ∀ x ∈ w.stack, ∃ q, x.2.resolved = some q ∧
    x.2.target? view.isFile x.1.path.directory plan.libraries = some q
  dated : ∀ {p s t}, w.stage = .read p s t → view.modified p = .ok t
  awaits : ∀ {p s x rest}, w.ComesTo p s → w.stack = x :: rest → x.2.resolved = some p
  failed : ∀ {e x rest}, w.stage = .leave (some e) → w.stack = x :: rest →
    ∃ q, x.2.resolved = some q ∧ plan.failure? view q = some e

/-- The problems of a file are those of its imports. -/
def Explains (plan : Plan) (view : FileView) (_ : Walk) (p : Path) (rs : List Reference)
    (ds : List Diagnostic) : Prop :=
  ∀ d ∈ ds, ∃ r ∈ rs, plan.problem? view p r = some d

section Seeks

variable {plan : Plan} {view : FileView} {w w' : Walk}

theorem seeks_start (entry : Path) (symbols : Symbols) : (start entry symbols).Seeks plan view := by
  constructor <;> simp [start]

theorem move_seeks (h : Move plan view false w w') (hcoherent : w.Coherent plan)
    (hw : w.Seeks plan view) : w'.Seeks plan view := by
  cases h with
  | quitEnter _ quit => cases quit
  | quitFollow _ _ quit => cases quit
  | @askTime p s stage _ _ =>
      refine ⟨by simp, hw.stack, by simp, ?_, by simp⟩
      intro p' s' x rest hcomes hstack
      obtain ⟨rfl, rfl⟩ : p = p' ∧ s = s' := by simpa [ComesTo, AsksFor] using hcomes
      exact hw.awaits (.inl stage) hstack
  | noTime stage answer =>
      refine ⟨by simp, hw.stack, by simp, by simp [ComesTo, AsksFor], ?_⟩
      rintro _ x rest ⟨⟩ hstack
      refine ⟨_, hw.awaits (.inr (.inl stage)) hstack, ?_⟩
      simp [Plan.failure?, hcoherent.stored (.inl stage), answer]
  | @askText p s time stage answer _ =>
      refine ⟨by simp, hw.stack, ?_, ?_, by simp⟩
      · rintro _ _ _ ⟨⟩
        exact answer
      · intro p' s' x rest hcomes hstack
        obtain ⟨rfl, rfl⟩ : p = p' ∧ s = s' := by simpa [ComesTo, AsksFor] using hcomes
        exact hw.awaits (.inr (.inl stage)) hstack
  | @noText p s time e stage answer =>
      have hasks : w.AsksFor p s := .inr ⟨time, stage⟩
      refine ⟨by simp, hw.stack, by simp, by simp [ComesTo, AsksFor], ?_⟩
      rintro _ x rest ⟨⟩ hstack
      refine ⟨p, hw.awaits (.inr hasks) hstack, ?_⟩
      simp [Plan.failure?, hcoherent.stored hasks, hw.dated stage, answer]
  | look stage more =>
      refine ⟨?_, hw.stack, by simp, by simp [ComesTo, AsksFor], by simp⟩
      rintro _ _ _ ⟨⟩
      rfl
  | skip stage absent =>
      refine ⟨?_, hw.stack, by simp, by simp [ComesTo, AsksFor], by simp⟩
      rintro _ _ _ ⟨⟩
      rw [hw.probe stage, List.find?_cons_of_neg (by simp [absent])]
  | @descend f r path rest stage found _ _ =>
      refine ⟨by simp, ?_, by simp, ?_, by simp⟩
      · intro x hx
        rcases List.mem_cons.1 hx with rfl | hx
        · exact ⟨path, rfl, (hw.probe stage).trans (List.find?_cons_of_pos found)⟩
        · exact hw.stack x hx
      · intro p s x rest' hcomes hstack
        obtain ⟨rfl, _⟩ : path = p ∧ r.active = s := by simpa [ComesTo, AsksFor] using hcomes
        cases hstack
        rfl
  | back stage inner =>
      refine ⟨by simp [leave, inner], ?_, by simp [leave, inner],
        by simp [ComesTo, AsksFor, leave, inner], by simp [leave, inner]⟩
      intro x hx
      exact hw.stack x (by simp_all [leave])
  | rest _ => exact hw
  | _ =>
      refine ⟨?_, hw.stack, ?_, ?_, ?_⟩ <;>
        simp [ComesTo, AsksFor, reuse, tokenize, register, missing]

theorem keeps_explains (hcoherent : w.Coherent plan) (hw : w.Seeks plan view) :
    Keeps plan view (Explains plan view) w w' where
  congr := by
    intro p q rs ds hq h d hd
    obtain ⟨r, hr, hproblem⟩ := h d hd
    exact ⟨r, hr, (Plan.problem?_congr hq rfl rfl rfl).trans hproblem⟩
  nil := by simp [Explains]
  mono := fun h => h
  add := by
    intro f r r' problem hconcludes h d hd
    rcases List.mem_append.1 hd with hold | hnew
    · obtain ⟨r₀, hr₀, hproblem⟩ := h d hold
      exact ⟨r₀, List.mem_append_left _ hr₀, hproblem⟩
    · refine ⟨r', by simp, ?_⟩
      have hproblem : problem = some d := Option.mem_toList.1 hnew
      cases hconcludes with
      | missing stage =>
          rw [← hproblem, Plan.problem?, hw.probe stage]
          rfl
      | meet _ _ _ => cases hproblem
      | @back failure stack stage inner =>
          obtain ⟨e, rfl, rfl⟩ := Option.map_eq_some_iff.1 hproblem
          obtain ⟨q, hresolved, hfailure⟩ := hw.failed stage inner
          obtain ⟨q', hresolved', htarget⟩ := hw.stack (f, r) (by simp [inner])
          replace hresolved : r.resolved = some q := hresolved
          cases hresolved.symm.trans hresolved'
          have hr : (w.redirected r (r.resolved.getD ⟨""⟩)).unresolved = r.unresolved := by simp
          rw [Plan.problem?_unresolved hr, Plan.problem?, htarget]
          simp [hfailure, Reference.unreadable, Reference.resolveTo, hresolved]
  same := by
    intro f stage _ h d hd
    -- The imports of the variant are those that were followed, as the text makes them.
    obtain ⟨r, hr, hproblem⟩ := h d hd
    have hbalanced := (hcoherent.innermost (opened_follow stage)).balanced
    have hmem : r.unresolved ∈ f.variant.references.map Reference.unresolved := by
      rw [← hbalanced]
      exact List.mem_map_of_mem (by simp [hr])
    obtain ⟨r', hr', hsame⟩ := List.mem_map.1 hmem
    exact ⟨r', hr', (Plan.problem?_unresolved hsame).trans hproblem⟩

end Seeks

section Run

variable {plan : Plan} {view : FileView}

/-- What a first pass keeps along its steps. -/
structure Accounts (plan : Plan) (view : FileView) (entry : Path) (w : Walk) : Prop where
  coherent : w.Coherent plan
  surveys : w.Surveys plan view entry
  seeks : w.Seeks plan view
  settles : w.Settles (Explains plan view)
  valid : w.ending? ≠ some .cancelled

theorem accounts_run (hfirst : ∀ p s, plan.previous.get? p s = none) (entry : Path)
    (symbols : Symbols) (n : Nat) :
    ((start entry symbols).run plan view n).Accounts plan view entry := by
  induction n with
  | zero =>
      exact ⟨coherent_start _ _ _, surveys_start _ _, seeks_start _ _, settles_start _ _,
        by simp [run, start, ending?]⟩
  | succ n ih =>
      have hmove := step_move plan view false ((start entry symbols).run plan view n)
      rw [run_succ]
      have hvalid := move_ending hmove ih.valid
      refine ⟨move_coherent hmove ih.coherent, move_surveys hmove hfirst ih.coherent ih.surveys,
        move_seeks hmove ih.coherent ih.seeks, ?_, hvalid⟩
      refine move_settles hmove ih.coherent (keeps_explains ih.coherent ih.seeks) ?_ ih.settles
      intro hended
      exact hvalid (by simp [ending?, hended])

/-- What a variant says is what there is to say at its place of the file. -/
theorem Accounts.diagnosticAt {entry : Path} {w : Walk} (hw : w.Accounts plan view entry)
    (hend : w.ending? = some .complete) {p : Path} {s : Symbols} {v : Variant}
    (hv : w.index.get? p s = some v) {d : Diagnostic} (hd : d ∈ v.allDiagnostics) :
    plan.diagnosticAt view v.path d.line d.column = some d := by
  have hreads := hw.surveys.reads p s v hv
  obtain ⟨text, hcontent, hscan⟩ := hreads.scan
  have hfits := Source.fits_scan text s
  rcases List.mem_append.1 hd with hd | hd
  · have hremark := hfits.notes d (hscan.diagnostics ▸ hd)
    simp [Plan.diagnosticAt, hcontent, hremark]
  · obtain ⟨r, hr, hproblem⟩ := hw.settles.complete hw.coherent hend hv d hd
    obtain ⟨hline, hcolumn⟩ := Plan.problem?_at hproblem
    have hmem : r.unresolved ∈ (Source.scan text s).findings.references :=
      hscan.references ▸ List.mem_map_of_mem hr
    have hremark : Source.remark text r.line r.column = some (.imports r.raw) :=
      hfits.imports r.unresolved hmem
    have hfile : plan.problem? view v.path ⟨r.line, r.column, r.raw, Symbols.empty,
      none, none⟩ =
        plan.problem? view p r :=
      Plan.problem?_congr hreads.place rfl rfl rfl
    rw [hline, hcolumn, Plan.diagnosticAt, hcontent, Option.bind_some, hremark,
      ← hproblem, ← hfile]

/-- In the index of a first pass, diagnostics at one place of a file are the same. -/
theorem Accounts.unique {entry : Path} {w : Walk} (hw : w.Accounts plan view entry)
    (hentry : entry.normalized = entry) (hend : w.ending? = some .complete) {p q : Path}
    {s t : Symbols} {u v : Variant} (hu : w.index.get? p s = some u)
    (hv : w.index.get? q t = some v) (hpath : p.components = q.components) {d e : Diagnostic}
    (hd : d ∈ u.allDiagnostics) (he : e ∈ v.allDiagnostics) (hline : d.line = e.line)
    (hcolumn : d.column = e.column) : d = e := by
  have hu' := hw.surveys.reads p s u hu
  have hv' := hw.surveys.reads q t v hv
  have hsame : u.path = v.path :=
    Path.eq_of_named hentry hu'.named hv'.named (hu'.place.trans (hpath.trans hv'.place.symm))
  have hd' := hw.diagnosticAt hend hu hd
  rw [hsame, hline, hcolumn, hw.diagnosticAt hend hv he] at hd'
  exact (Option.some.inj hd').symm

end Run

end Walk

end AsmIndex

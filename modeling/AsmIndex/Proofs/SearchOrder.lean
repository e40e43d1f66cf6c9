import AsmIndex.Proofs.FollowedImports
import AsmIndex.Proofs.ImportGraph
import AsmIndex.Proofs.NormalForms
import AsmIndex.Proofs.ProjectSettings
import AsmIndex.Proofs.WalkMirror

/-!
The order in which imports are searched. A pass looks for an import in the directory of the
importing file, then in the library directories of its request, then in those of the settings, and
takes the first file that it sees. So a file that comes to be shadows the files after it and no
others, and directories that are searched after all others take nothing away.
-/

namespace AsmIndex

namespace Path

/-- Where a file of a given name may be: at the name itself if it is absolute, else below the
directory of the importing file and below each library directory, which is taken from the
directory of the project. -/
def places (project directory : Path) (libraries : List Path) (name : Path) : List Path :=
  if name.isAbsolute then [name]
  else directory.join name :: libraries.map fun library => (project.join library).join name

/-- Whether a library directory has a normal form, taken from the directory of the project. -/
def hasForm (project library : Path) : Bool := (project.join library).normal?.isSome

/-- The normal forms of the places of a name, without library directories that have no normal
form. -/
def searched (project directory : Path) (libraries : List Path) (name : Path) : List Path :=
  (places project directory (libraries.filter project.hasForm) name).filterMap normal?

/-- Of places that were looked at in order, `found` is the first at which a file was seen. -/
def FirstSeen (seen : Path → Bool → Prop) (places : List Path) (found : Option Path) : Prop :=
  match found with
  | none => ∀ q ∈ places, seen q false
  | some t => ∃ before after, places = before ++ t :: after ∧
      (∀ q ∈ before, seen q false) ∧
      seen t true

section Places

variable {project : Path}

theorem absolutize_eq (project : Path) (libraries : List Path) :
    absolutize project libraries = libraries.filterMap fun l => (project.join l).normal? := by
  refine List.filterMap_congr fun l _ => ?_
  split
  · rename_i habsolute
    rw [join, if_pos habsolute]
  · rfl

theorem text_isEmpty_of_normal? {p q : Path} (h : p.normal? = some q) : p.text.isEmpty = false := by
  rw [Bool.eq_false_iff, ne_eq, String.isEmpty_iff]
  intro hempty
  have hnone : Path.normal? ⟨""⟩ = none := rfl
  obtain rfl : p = ⟨""⟩ := by rw [← hempty]
  cases hnone.symm.trans h

/-- A library directory in normal form leads where the directory as it is given leads. -/
theorem normal?_join_normal? {p q : Path} (h : p.normal? = some q) (name : Path) :
    (q.join name).normal? = (p.join name).normal? := by
  have hq := normal?_normal? h
  refine normal?_join_of_same (text_isEmpty_of_normal? hq) (text_isEmpty_of_normal? h) ?_ name
  rw [← normal?_components hq, ← normal?_components h]

theorem filterMap_absolutize (project : Path) (libraries : List Path) (name : Path) :
    ((absolutize project libraries).filterMap fun l => (l.join name).normal?) =
      ((libraries.filter project.hasForm).map fun l => (project.join l).join name).filterMap
        normal? := by
  rw [absolutize_eq]
  induction libraries with
  | nil => rfl
  | cons l libraries ih =>
      cases hl : (project.join l).normal? with
      | none => simpa [hl, hasForm] using ih
      | some d =>
          have hform : project.hasForm l = true := by simp [hasForm, hl]
          simp only [List.filterMap_cons, hl, List.filter_cons_of_pos hform, List.map_cons,
            normal?_join_normal? hl, ih]

/-- The candidates for an import are the normal forms of its places. -/
theorem candidates_absolutize (project directory : Path) (libraries : List Path) (name : Path) :
    candidates directory (absolutize project libraries) name =
      searched project directory libraries name := by
  unfold candidates searched places
  split
  · cases hname : name.normal? <;> simp [hname]
  · rw [List.filterMap_cons, List.filterMap_cons, filterMap_absolutize]

theorem hasForm_of_isAbsolute (h : project.isAbsolute = true) (library : Path) :
    project.hasForm library = true := by
  have habsolute := isAbsolute_join h library
  obtain ⟨names, _, hnames⟩ := (project.join library).normalComponents_eq_plain
  rw [habsolute] at hnames
  rw [hasForm, normal?_of_plain hnames (by simp [plain])]
  rfl

theorem searched_append (project directory : Path) (libraries more : List Path) (name : Path) :
    searched project directory libraries name <+:
      searched project directory (libraries ++ more) name := by
  unfold searched places
  split
  · exact List.prefix_rfl
  · rw [List.filter_append, List.map_append, ← List.cons_append, List.filterMap_append]
    exact List.prefix_append _ _

end Places

section FirstSeen

variable {seen : Path → Bool → Prop} {places : List Path}

/-- Where each place looks the same at all times, the first file seen is the first one there is. -/
theorem FirstSeen.eq_find? {found : Option Path} (h : FirstSeen seen places found)
    {isFile : Path → Bool} (hseen : ∀ q b, seen q b → b = isFile q) :
    found = places.find? isFile := by
  cases found with
  | none =>
      symm
      rw [List.find?_eq_none]
      intro q hq
      rw [← hseen q false (h q hq)]
      exact Bool.false_ne_true
  | some t =>
      obtain ⟨before, after, rfl, hbefore, ht⟩ := h
      symm
      rw [List.find?_eq_some_iff_append]
      refine ⟨(hseen t true ht).symm, before, after, rfl, ?_⟩
      intro q hq
      rw [← hseen q false (hbefore q hq)]
      rfl

/-- A file that comes to be is found, or it makes no difference. -/
theorem find?_of_new_file {isFile isFile' : Path → Bool} {x : Path}
    (hsame : ∀ q, q.components ≠ x.components → isFile' q = isFile q)
    (hnew : ∀ q, q.components = x.components → isFile' q = true) (places : List Path) :
    places.find? isFile' = places.find? isFile ∨
      ∃ t, places.find? isFile' = some t ∧ t.components = x.components := by
  induction places with
  | nil => exact .inl rfl
  | cons q rest ih =>
      by_cases hq : q.components = x.components
      · exact .inr ⟨q, by rw [List.find?_cons_of_pos (hnew q hq)], hq⟩
      · have hfile := hsame q hq
        rw [List.find?_cons, List.find?_cons, hfile]
        cases isFile q with
        | true => exact .inl rfl
        | false => exact ih

end FirstSeen

end Path

namespace Walk

/-- The imports that a walk is at: of the one that it looks for, no file was seen at the places
that it is done with; those that lead to the files further in were found at the first file that
was seen. -/
structure Searches (plan : Plan) (seen : Path → Bool → Prop) (w : Walk) : Prop where
  probe : ∀ {f r cs}, w.stage = .probe f r cs → ∃ tried,
    r.candidates f.path.directory plan.libraries = tried ++ cs ∧ ∀ q ∈ tried, seen q false
  stack : ∀ x ∈ w.stack,
    Path.FirstSeen seen (x.2.candidates x.1.path.directory plan.libraries) x.2.resolved

/-- The imports of the file at `p` were found at the first files that were seen. -/
def FoundFirst (plan : Plan) (seen : Path → Bool → Prop) (p : Path) (rs : List Reference) :
    Prop :=
  ∀ r ∈ rs, Path.FirstSeen seen (r.candidates p.directory plan.libraries) r.resolved

section Searches

variable {plan : Plan} {seen : Path → Bool → Prop} {view : FileView} {cancelled : Bool}
  {w w' : Walk}

theorem candidates_resolveTo (r : Reference) (path : Path) :
    (r.resolveTo path).candidates = r.candidates := rfl

theorem candidates_redirected (w : Walk) (r : Reference) (target : Path) :
    (w.redirected r target).candidates = r.candidates := by
  unfold redirected
  split <;> rfl

theorem searches_start (entry : Path) (symbols : Symbols) :
    (start entry symbols).Searches plan seen where
  probe := by simp [start]
  stack := by simp [start]

/-- An import that is looked for and seen at a place was seen there first. -/
theorem Searches.firstSeen (hw : w.Searches plan seen) {f : Frame} {r : Reference} {path : Path}
    {rest : List Path} (stage : w.stage = .probe f r (path :: rest)) (hpath : seen path true) :
    Path.FirstSeen seen (r.candidates f.path.directory plan.libraries) (some path) := by
  obtain ⟨tried, hcandidates, htried⟩ := hw.probe stage
  exact ⟨tried, rest, hcandidates, htried, hpath⟩

theorem move_searches (h : Move plan view cancelled w w') (hseen : ∀ q, seen q (view.isFile q))
    (hw : w.Searches plan seen) : w'.Searches plan seen := by
  cases h with
  | @look f r pending stage more =>
      refine ⟨?_, hw.stack⟩
      rintro _ _ _ ⟨⟩
      exact ⟨[], (List.nil_append _).symm, by simp⟩
  | @skip f r path rest stage absent =>
      refine ⟨?_, hw.stack⟩
      rintro _ _ _ ⟨⟩
      obtain ⟨tried, hcandidates, htried⟩ := hw.probe stage
      refine ⟨tried ++ [path], by simp [hcandidates], ?_⟩
      intro q hq
      rcases List.mem_append.1 hq with hq | hq
      · exact htried q hq
      · obtain rfl := List.mem_singleton.1 hq
        exact absent ▸ hseen q
  | @descend f r path rest stage found =>
      refine ⟨by simp, ?_⟩
      intro x hx
      rcases List.mem_cons.1 hx with rfl | hx
      · rw [candidates_resolveTo]
        exact hw.firstSeen stage (found ▸ hseen path)
      · exact hw.stack x hx
  | back stage inner =>
      refine ⟨by simp [leave, inner], ?_⟩
      intro x hx
      exact hw.stack x (by simp_all [leave])
  | rest _ => exact hw
  | _ => exact ⟨by simp [reuse, tokenize, register, missing], hw.stack⟩

theorem Concludes.firstSeen {f : Frame} {r r' : Reference} {problem : Option Diagnostic}
    (h : Concludes plan view w f r r' problem) (hseen : ∀ q, seen q (view.isFile q))
    (haims : w.Aims) (hw : w.Searches plan seen) :
    Path.FirstSeen seen (r'.candidates f.path.directory plan.libraries) r'.resolved := by
  cases h with
  | missing stage =>
      obtain ⟨tried, hcandidates, htried⟩ := hw.probe stage
      have hresolved : r.resolved = none := by rw [← haims.probe stage]; rfl
      rw [hresolved, hcandidates, List.append_nil]
      exact htried
  | @meet path rest stage found old =>
      rw [redirected_resolved, candidates_redirected, candidates_resolveTo]
      exact hw.firstSeen stage (found ▸ hseen path)
  | back stage inner =>
      rw [redirected_resolved, candidates_redirected]
      exact hw.stack (f, r) (by simp [inner])

theorem keeps_foundFirst (hcoherent : w.Coherent plan) (hcanonical : w.Canonical) (haims : w.Aims)
    (hseen : ∀ q, seen q (view.isFile q)) (hw : w.Searches plan seen) :
    Keeps plan view (fun _ p rs _ => FoundFirst plan seen p rs) w w' where
  congr := by
    intro p q rs _ hq h r hr
    rw [Path.directory_congr hq]
    exact h r hr
  nil := by
    intro p r hr
    cases hr
  mono := id
  add := by
    intro f r r' problem hconcludes h x hx
    rcases List.mem_append.1 hx with hx | hx
    · exact h x hx
    · obtain rfl := List.mem_singleton.1 hx
      exact hconcludes.firstSeen hseen haims hw
  same := by
    intro f stage hsame h
    rw [← hcoherent.followed_eq hcanonical stage hsame]
    exact h

/-- What a walk keeps true as it searches for imports: those of closed files, and those of open
files that were followed, were found at the first files that were seen. -/
structure Looks (plan : Plan) (seen : Path → Bool → Prop) (w : Walk) : Prop where
  coherent : w.Coherent plan
  aims : w.Aims
  canonical : w.Holds (fun _ _ _ => True) (fun _ _ v => ∀ r ∈ v.references, r.Canonical)
  searches : w.Searches plan seen
  settles : w.stage ≠ .ended .cancelled → w.Settles fun _ p rs _ => FoundFirst plan seen p rs

theorem looks_start (entry : Path) (symbols : Symbols) : (start entry symbols).Looks plan seen :=
  ⟨coherent_start _ _ _, aims_start _ _, holds_start _ _, searches_start _ _,
    fun _ => settles_start _ _⟩

theorem step_looks
    (hprevious : ∀ p s v, plan.previous.get? p s = some v → ∀ r ∈ v.references, r.Canonical)
    (hseen : ∀ q, seen q (view.isFile q)) (cancelled : Bool) (hw : w.Looks plan seen) :
    (w.step plan view cancelled).Looks plan seen := by
  have hmove := step_move plan view cancelled w
  refine ⟨move_coherent hmove hw.coherent, move_aims hmove hw.aims,
    move_holds hmove (upholds_canonical hprevious) hw.coherent hw.canonical,
    move_searches hmove hseen hw.searches, fun hvalid => ?_⟩
  have hbefore : w.stage ≠ .ended .cancelled := by
    intro hended
    rw [move_ended hmove hended] at hvalid
    exact hvalid hended
  exact move_settles hmove hw.coherent
    (keeps_foundFirst hw.coherent hw.canonical.index hw.aims hseen hw.searches) hvalid
    (hw.settles hbefore)

end Searches

end Walk

namespace Indexer

/-- At some moment of the run `during`, a place was a file or was none. -/
def SeenDuring (ix : Indexer) (during : List Action) (q : Path) (isFile : Bool) : Prop :=
  ∃ mid, mid <+: during ∧ (ix.run mid).files.view.isFile q = isFile

/-- A pass that gets its turn finds imports at the first files that it sees, all through the run. -/
theorem Begins.looks {ix : Indexer} {a : Action} {r : Running} (h : ix.Begins a r) (hix : ix.Sound)
    (hprevious : ∀ p s v, r.plan.previous.get? p s = some v →
      ∀ r ∈ v.references, r.Canonical)
    {during mid : List Action} (hmid : mid <+: during) :
    ((ix.act a).run mid).Pursues r.call r.plan
      (Walk.Looks r.plan ((ix.act a).SeenDuring during)) := by
  induction mid using List.reverseRecOn with
  | nil =>
      obtain ⟨symbols, phase⟩ := h.phase
      exact (event_sound (act_event ix a) hix).pursues h.turn phase (Walk.looks_start _ _)
  | append_singleton mid b ih =>
      have hbefore : mid <+: during := List.IsPrefix.trans (List.prefix_append _ _) hmid
      rw [run_append, run_cons, run_nil]
      refine event_pursues (act_event _ b) (fun cancelled hw => ?_) (ih hbefore)
      exact Walk.step_looks hprevious (fun q => ⟨mid, hbefore, rfl⟩) cancelled hw

theorem WorksWith.candidates_eq {r : Running} {config : Config} {request : Request}
    (h : WorksWith r config request) {ref : Reference} (hname : ref.normalized ≠ "")
    (directory : Path) :
    ref.candidates directory r.plan.libraries =
      Path.searched r.project.directory directory
        (request.libraries ++ config.libraryDirectories) ⟨ref.normalized⟩ := by
  rw [Reference.candidates, if_neg (by simpa using hname), h.libraries, Path.candidates_absolutize]

/-- The order of search, and what does not disturb it. In every pass that comes to the end of its
walk, an import that has a name is found at the first place at which the pass sees a file. The
places are the normal forms of the name itself if it is absolute, else of the name below the
directory of the importing file, below the library directories of the call, and below those of the
settings. A library directory is taken from the directory of the project and is left out if it
then has no normal form; none is left out where the project is in an absolute directory. As long
as no file comes or goes, the first place seen is the first place there is. Where one more file
exists, an import is found where it was or at that file; and library directories that are searched
after all others do not change where an import is found. -/
theorem search_order (config : Config) (files : Memory) (before during : List Action) (a : Action)
    (r : Running) (index : Index) (hbegins : ((new config files).run before).Begins a r)
    (hcomputes : (((new config files).run before).act a).Computes during r.call index) :
    let start := new config files
    let ix := (start.run before).act a
    let base := r.project.directory
    ∃ request, AskedBy start (before ++ [a]) r.call r.project request ix.config ∧
      let libraries := request.libraries ++ ix.config.libraryDirectories
      (∀ p s v, index.get? p s = some v → ∀ ref ∈ v.references, ref.normalized ≠ "" →
        let places := Path.searched base p.directory libraries ⟨ref.normalized⟩
        Path.FirstSeen (ix.SeenDuring during) places ref.resolved ∧
        ((∀ mid, mid <+: during → ∀ q,
          (ix.run mid).files.view.isFile q = ix.files.view.isFile q) →
          ref.resolved = places.find? ix.files.view.isFile)) ∧
      (base.isAbsolute = true → libraries.filter base.hasForm = libraries) ∧
      (∀ (isFile isFile' : Path → Bool) (x : Path),
        (∀ q, q.components ≠ x.components → isFile' q = isFile q) →
        (∀ q, q.components = x.components → isFile' q = true) → ∀ directory name,
        let places := Path.searched base directory libraries name
        places.find? isFile' = places.find? isFile ∨
          ∃ t, places.find? isFile' = some t ∧ t.components = x.components) ∧
      ∀ (isFile : Path → Bool) (more : List Path) directory name t,
        (Path.searched base directory libraries name).find? isFile = some t →
        (Path.searched base directory (libraries ++ more) name).find? isFile = some t := by
  intro start ix base
  have hsound := run_sound (sound_new config files) before
  obtain ⟨haligned, hrecalls⟩ := aligned_run config files before
  obtain ⟨request, hasked, _, hworks⟩ := hbegins.coherent hsound.ordered haligned hrecalls
  refine ⟨request, hasked, ?_, ?_, ?_, ?_⟩
  · intro p s v hv ref href hname places
    have hprevious : r.plan.previous = ix.snapshot.index :=
      (event_sound (act_event _ a) hsound).grounded.previous hbegins.turn hworks.phase
    have hcanonical := (canonical_run config files (before ++ [a])).snapshot
    rw [run_append, run_cons, run_nil, ← hprevious] at hcanonical
    obtain ⟨mid, rest, r', w, rfl, running, hcall, phase, ended, rfl⟩ := hcomputes
    have hlooks := ((hbegins.looks hsound hcanonical (List.prefix_append mid rest)).leads running
      hcall phase).2
    have hsettles := hlooks.settles (by simp [Walk.stage_of_ending ended])
    have hfirst := hsettles.complete hlooks.coherent ended hv ref href
    rw [hworks.candidates_eq hname] at hfirst
    refine ⟨hfirst, fun hstill => hfirst.eq_find? ?_⟩
    rintro q _ ⟨mid', hmid', rfl⟩
    exact hstill mid' hmid' q
  · intro habsolute
    exact List.filter_eq_self.2 fun l _ => Path.hasForm_of_isAbsolute habsolute l
  · intro isFile isFile' x hsame hnew directory name places
    exact Path.find?_of_new_file hsame hnew places
  · intro isFile more directory name t ht
    obtain ⟨rest, hrest⟩ := Path.searched_append base directory
      (request.libraries ++ ix.config.libraryDirectories) more name
    rw [← hrest, List.find?_append, ht]
    rfl

/-- An import of which there are copies in a library directory of the call and in one of the
settings. -/
def twoCopies : List Action :=
  [.write ⟨"/p/main.asm"⟩ "#import \"x.asm\"\n", .write ⟨"/l/x.asm"⟩ "",
    .write ⟨"/c/x.asm"⟩ ""]

/-- A pass over it; a copy beside the importing file comes too late. -/
def lateCopy : List Action :=
  List.replicate 5 .advance ++ .write ⟨"/p/x.asm"⟩ "" :: List.replicate 8 .advance

/-- The copy of the call is taken, though in the end there is one at an earlier place. -/
theorem search_order_lateCopy :
    let start := new { libraryDirectories := [⟨"/c"⟩] } {}
    let a : Action := .call (.initial ⟨"/p"⟩ { libraries := [⟨"../l"⟩] })
    ∃ r index v ref, (start.run twoCopies).Begins a r ∧
      ((start.run twoCopies).act a).Computes lateCopy r.call index ∧
      index.get? ⟨"/p/main.asm"⟩ Symbols.empty = some v ∧ ref ∈ v.references ∧
      ref.normalized ≠ "" ∧ ref.resolved = some ⟨"/l/x.asm"⟩ ∧
      ∃ request, AskedBy start (twoCopies ++ [a]) r.call r.project request
          ((start.run twoCopies).act a).config ∧
        Path.FirstSeen (((start.run twoCopies).act a).SeenDuring lateCopy)
          (Path.searched r.project.directory (Path.directory ⟨"/p/main.asm"⟩)
            (request.libraries ++ ((start.run twoCopies).act a).config.libraryDirectories)
            ⟨ref.normalized⟩) ref.resolved := by
  intro start a
  obtain ⟨r, index, hwalked, hbegins, hcomputes⟩ : ∃ r index,
      (((start.run twoCopies).act a).run lateCopy).walked? = some (r.call, index) ∧
      (start.run twoCopies).Begins a r ∧
      ((start.run twoCopies).act a).Computes lateCopy r.call index :=
    exists_begins_walked (k := 0) (by decide +kernel) (by decide +kernel) (by decide +kernel)
  have hfound : ((((start.run twoCopies).act a).run lateCopy).walked?.any fun x =>
      (x.2.get? ⟨"/p/main.asm"⟩ Symbols.empty).any fun v => v.references.any fun ref =>
        ref.normalized != "" && ref.resolved == some ⟨"/l/x.asm"⟩) = true := by
    decide +kernel
  rw [hwalked, Option.any_some] at hfound
  obtain ⟨v, hv, hreferences⟩ := (Option.any_eq_true _ _).1 hfound
  obtain ⟨ref, href, hnamed⟩ := List.any_eq_true.1 hreferences
  simp only [Bool.and_eq_true, bne_iff_ne, beq_iff_eq] at hnamed
  obtain ⟨request, hasked, hfirst, _⟩ :=
    search_order _ {} twoCopies lateCopy a r index hbegins hcomputes
  exact ⟨r, index, v, ref, hbegins, hcomputes, hv, href, hnamed.1, hnamed.2, request, hasked,
    (hfirst _ _ v hv ref href hnamed.1).1⟩

/-- A library directory that leads from the project to the directory above it is left out, and so
a file there is not found. -/
theorem library_above_project_not_searched :
    let ix := (new {} {}).run
      ([.write ⟨"p/main.asm"⟩ "#import \"x.asm\"\n", .write ⟨"x.asm"⟩ "",
        .call (.initial ⟨"p"⟩ { libraries := [⟨".."⟩] })] ++ List.replicate 12 .advance)
    (ix.snapshot.index.get? ⟨"p/main.asm"⟩ Symbols.empty).map
        (fun v => v.references.map Reference.resolved) = some [none] ∧
      ((Path.places ⟨"p"⟩ ⟨"p"⟩ [⟨".."⟩] ⟨"x.asm"⟩).filterMap Path.normal?).find?
        ix.files.view.isFile = some ⟨"x.asm"⟩ := by
  decide +kernel

end Indexer

end AsmIndex

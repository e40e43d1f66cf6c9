import AsmIndex.Proofs.Reparse
import AsmIndex.Proofs.SearchOrder

/-!
Settings that cannot be told apart. Library directories are compared by their components and
searched in normal form, so another spelling of a directory leads to the same places. What an
indexer does depends on its settings only through what decides how imports are found and through
the severity of imports that are not found: indexers that agree in both go through the same
actions alike.
-/

namespace AsmIndex

theorem Path.absolutize_congr (base : Path) {ds es : List Path}
    (h : ds.map components = es.map components) : absolutize base ds = absolutize base es := by
  rw [absolutize_eq, absolutize_eq]
  induction ds generalizing es with
  | nil =>
      rw [List.map_nil, eq_comm, List.map_eq_nil_iff] at h
      rw [h]
  | cons d ds ih =>
      obtain ⟨e, es, rfl, hhead, htail⟩ := List.map_eq_cons_iff.1 h.symm
      rw [List.filterMap_cons, List.filterMap_cons, normal?_join_of_components base hhead,
        ih htail.symm]

namespace Config

/-- Two settings agree in all that an indexer reads of them. -/
structure Equivalent (c d : Config) : Prop extends c.SameSearch d where
  severity : c.unresolvedImportSeverity = d.unresolvedImportSeverity

theorem Equivalent.refl (c : Config) : c.Equivalent c := ⟨.refl c, rfl⟩

theorem SameSearch.searchChanged_eq {c d : Config} (h : c.SameSearch d) (e : Config) :
    c.searchChanged e = d.searchChanged e := by
  simp only [searchChanged, h.entryFile, h.directories, h.symbols]

end Config

namespace Indexer

/-- The indexer with other settings. -/
def under (ix : Indexer) (config : Config) : Indexer := { ix with config }

section Under

variable {ix : Indexer} {d : Config}

theorem planOf_under (h : ix.config.Equivalent d) (id : Nat) (project : Project)
    (request : Request) :
    (ix.under d).planOf id project request = ix.planOf id project request := by
  have hlibraries : Path.absolutize project.directory (request.libraries ++ d.libraryDirectories) =
      Path.absolutize project.directory (request.libraries ++ ix.config.libraryDirectories) := by
    apply Path.absolutize_congr
    rw [List.map_append, List.map_append, h.directories]
  simp only [planOf, under, hlibraries, h.severity]

theorem symbolsOf_under (h : ix.config.SameSearch d) (request : Request) :
    (ix.under d).symbolsOf request = ix.symbolsOf request := by
  simp only [symbolsOf, under, h.symbols]

theorem grant_under (ix : Indexer) (h : ix.config.Equivalent d) (job : Job) :
    (ix.under d).grant job = (ix.grant job).under d := by
  cases job with
  | stop call => rfl
  | pass call id project request =>
      have hcancelled : (ix.under d).isCancelled id = ix.isCancelled id := rfl
      simp only [grant, planOf_under h, symbolsOf_under h.toSameSearch, hcancelled]
      split <;> rfl

theorem enqueue_under (ix : Indexer) (h : ix.config.Equivalent d) (job : Job) :
    (ix.under d).enqueue job = (ix.enqueue job).under d := by
  have hfree : ((ix.under d).running.isNone && (ix.under d).queue.isEmpty) =
      (ix.running.isNone && ix.queue.isEmpty) := rfl
  simp only [enqueue, hfree, grant_under ix h]
  split <;> rfl

theorem requestPass_under (ix : Indexer) (h : ix.config.Equivalent d) (call : Nat)
    (request : Request) :
    (ix.under d).requestPass call request = (ix.requestPass call request).under d := by
  cases hproject : ix.project with
  | none =>
      have hproject' : (ix.under d).project = none := hproject
      simp only [requestPass, hproject, hproject']
      rfl
  | some project =>
      have hproject' : (ix.under d).project = some project := hproject
      simp only [requestPass, hproject, hproject']
      exact enqueue_under
        { ix.cancelActive with
          lastRequest := some request
          passCount := ix.passCount + 1
          active := some (ix.passCount + 1) } h _

theorem conclude_under (r : Running) (w : Walk) (ending : Walk.Ending) :
    (ix.under d).conclude r w ending = (ix.conclude r w ending).under d := by
  cases ending with
  | cancelled => rfl
  | unreadable e => rfl
  | complete =>
      have hcancelled : (ix.under d).isCancelled r.plan.pass = ix.isCancelled r.plan.pass := rfl
      simp only [conclude, hcancelled]
      split
      · rfl
      · split <;> rfl

theorem foldl_perform_under (tasks : List Task) (pass : Nat) (ix : Indexer) :
    tasks.foldl (fun ix t => ix.perform pass t) (ix.under d) =
      (tasks.foldl (fun ix t => ix.perform pass t) ix).under d := by
  induction tasks generalizing ix with
  | nil => rfl
  | cons t tasks ih =>
      have hperform : (ix.under d).perform pass t = (ix.perform pass t).under d := by
        simp only [perform]
        split <;> rfl
      rw [List.foldl_cons, List.foldl_cons, hperform, ih]

theorem advancePass?_under (r : Running) :
    (ix.under d).advancePass? r = (ix.advancePass? r).map (under · d) := by
  obtain ⟨call, project, plan, phase⟩ := r
  cases phase with
  | walking w =>
      obtain ⟨index, once, reused, tokenized, made, stack, stage⟩ := w
      cases stage with
      | ended ending => exact congrArg some (conclude_under _ _ ending)
      | read path symbols modified =>
          have hgated : (ix.under d).files.isGated path = ix.files.isGated path := rfl
          cases hgate : ix.files.isGated path with
          | true => simp [advancePass?, Walk.ending?, hgated, hgate]
          | false =>
              simp only [advancePass?, Walk.ending?, hgated, hgate, Bool.false_eq_true, if_false]
              rfl
      | _ => rfl
  | joining summary tasks =>
      have hheld : (ix.under d).isHeld = ix.isHeld := rfl
      simp only [advancePass?, hheld]
      split
      · rfl
      · split
        · rfl
        · exact congrArg some (foldl_perform_under _ _
            { ix with
              running :=
                some ⟨call, project, plan, .joining summary (tasks.filter ix.isHeld)⟩ })

theorem advance?_under (h : ix.config.Equivalent d) :
    (ix.under d).advance? = ix.advance?.map (under · d) := by
  cases hrunning : ix.running with
  | some r =>
      have hrunning' : (ix.under d).running = some r := hrunning
      simp only [advance?, hrunning, hrunning']
      exact advancePass?_under r
  | none =>
      have hrunning' : (ix.under d).running = none := hrunning
      simp only [advance?, hrunning, hrunning']
      cases hqueue : ix.queue with
      | nil =>
          have hqueue' : (ix.under d).queue = [] := hqueue
          rw [hqueue']
          rfl
      | cons job rest =>
          have hqueue' : (ix.under d).queue = job :: rest := hqueue
          rw [hqueue']
          exact congrArg some (grant_under { ix with running := none, queue := rest } h job)

/-- New settings take the place of both; what was there before decides only whether to parse
again. -/
theorem changeConfig_under (ix : Indexer) (h : ix.config.Equivalent d) (call : Nat)
    (config : Config) :
    (ix.under d).changeConfig call config = ix.changeConfig call config := by
  have hchanged : (ix.under d).config.searchChanged config = ix.config.searchChanged config :=
    (h.searchChanged_eq config).symm
  simp only [changeConfig, hchanged]
  rfl

/-- A call other than one that changes the settings leaves the indexers alike. -/
theorem call_under (h : ix.config.Equivalent d) {c : Call}
    (hc : ∀ config, c ≠ .setConfig config) :
    (ix.under d).call c = (ix.call c).under d := by
  cases c with
  | initial directory request =>
      have hentry : (ix.under d).config.entryFile = ix.config.entryFile := h.entryFile.symm
      let project := Project.of directory.normalized ix.config.entryFile
      simp only [call, hentry]
      exact requestPass_under
        { ix with callCount := ix.callCount + 1, project := some project } h _ request
  | parse request => exact requestPass_under { ix with callCount := ix.callCount + 1 } h _ request
  | setConfig config => exact absurd rfl (hc config)
  | stop => exact enqueue_under { ix with callCount := ix.callCount + 1 }.cancelActive h _

/-- One action leaves two indexers alike but for equivalent settings. -/
theorem act_under (h : ix.config.Equivalent d) (a : Action) :
    ∃ e, (ix.act a).config.Equivalent e ∧ (ix.under d).act a = (ix.act a).under e := by
  have hstays : (∀ c, a ≠ .call (.setConfig c)) → (ix.act a).config.Equivalent d := by
    intro ha
    rw [event_config (ix.act_event a) ha]
    exact h
  cases a with
  | call c =>
      by_cases hc : ∃ config, c = .setConfig config
      · obtain ⟨config, rfl⟩ := hc
        exact ⟨_, .refl _,
          changeConfig_under { ix with callCount := ix.callCount + 1 } h _ config⟩
      · have hc' : ∀ config, c ≠ .setConfig config := fun config heq => hc ⟨config, heq⟩
        exact ⟨d, hstays (by simpa using hc'), call_under h hc'⟩
  | revoke pass =>
      refine ⟨d, hstays (by simp), ?_⟩
      have hnotices : (ix.under d).notices = ix.notices := rfl
      simp only [act, revoke, hnotices]
      split <;> rfl
  | advance =>
      refine ⟨d, hstays (by simp), ?_⟩
      simp only [act, advance?_under h]
      cases ix.advance? <;> rfl
  | _ => exact ⟨d, hstays (by simp), rfl⟩

/-- Indexers with equivalent settings go through the same actions alike. -/
theorem run_under (h : ix.config.Equivalent d) (actions : List Action) :
    ∃ e, (ix.run actions).config.Equivalent e ∧
      (ix.under d).run actions = (ix.run actions).under e := by
  induction actions generalizing ix d with
  | nil => exact ⟨d, h, rfl⟩
  | cons a rest ih =>
      obtain ⟨e, hequivalent, hact⟩ := act_under h a
      rw [run_cons, run_cons, hact]
      exact ih hequivalent

end Under

end Indexer

end AsmIndex

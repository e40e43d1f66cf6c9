import AsmIndex.Proofs.PassFindings
import AsmIndex.Proofs.ProjectSettings
import AsmIndex.Proofs.Publication

/-!
The relative paths of variants. A variant is made with its path relative to the project of the
pass that makes it, and it keeps that as long as passes take it over, also those of another
project. So after a pass the relative paths are right for its project exactly where the variants
that it took over had them right.
-/

namespace AsmIndex

theorem Path.relativeTo_congr {d e : Path} (h : d.components = e.components) (p : Path) :
    p.relativeTo d = p.relativeTo e := by
  simp only [relativeTo, h]

/-- The relative path of the variant is the one below `directory`. -/
def Variant.RelativeTo (v : Variant) (directory : Path) : Prop :=
  v.relativePath = v.path.relativeTo directory

namespace Walk

section Verdict

variable {plan : Plan} {view : FileView} {found : Findings} {p : Path} {s : Symbols} {v : Variant}

theorem Origin.relative (h : Origin plan found p s v) :
    plan.Reuses found p s v ∨
      (∀ u, ¬ plan.Reuses found p s u) ∧ v.RelativeTo plan.directory := by
  cases h with
  | reused reuses => exact .inl reuses
  | scanned same changed => exact .inr ⟨changed, rfl⟩

/-- A variant that is taken over keeps its paths, whatever its imports come to; any other one is
made by the pass. -/
theorem Verdict.relative (h : Verdict plan found p s v) :
    (∃ u, plan.Reuses found p s u ∧ v.path = u.path ∧ v.relativePath = u.relativePath) ∨
      (∀ u, ¬ plan.Reuses found p s u) ∧ v.RelativeTo plan.directory := by
  cases h with
  | kept origin imports => exact origin.relative.imp_left fun hreuses => ⟨v, hreuses, rfl, rfl⟩
  | replaced origin imports changed =>
      rcases origin.relative with hreuses | ⟨hnone, hright⟩
      · exact .inl ⟨_, hreuses, rfl, rfl⟩
      · exact .inr ⟨hnone, hright⟩

theorem Verdict.relativeTo_iff (h : Verdict plan found p s v) :
    v.RelativeTo plan.directory ↔
      ∀ u, plan.Reuses found p s u → u.RelativeTo plan.directory := by
  rcases h.relative with ⟨u, hreuses, hpath, hrelative⟩ | ⟨hnone, hright⟩
  · have hsame : v.RelativeTo plan.directory ↔ u.RelativeTo plan.directory := by
      simp only [Variant.RelativeTo, hpath, hrelative]
    rw [hsame]
    refine ⟨fun hright u' hu' => ?_, fun hall => hall u hreuses⟩
    obtain rfl := Option.some.inj (hreuses.1.symm.trans hu'.1)
    exact hright
  · exact ⟨fun _ u hu => absurd hu (hnone u), fun _ => hright⟩

theorem upholds_relativeTo {directory : Path}
    (hdirectory : plan.directory.components = directory.components)
    (hprevious : ∀ p s v, plan.previous.get? p s = some v → v.RelativeTo directory) :
    Upholds plan view (fun _ _ _ => True) (fun _ _ v => v.RelativeTo directory) where
  congr := fun _ hv => hv
  reuseLive := fun _ hold _ => hprevious _ _ _ hold
  scanLive := fun _ _ => Path.relativeTo_congr hdirectory _
  reuseStored := fun _ _ hold _ => hprevious _ _ _ hold
  dated := fun _ _ => trivial
  scanStored := fun _ _ _ _ => Path.relativeTo_congr hdirectory _
  replace := fun _ _ _ hv => hv

end Verdict

end Walk

namespace Indexer

/-- As long as all projects are in one directory, relative paths are relative to it. -/
theorem relativeTo_run {directory : Path} (config : Config) (files : Memory) {actions : List Action}
    (hstays : ∀ a ∈ actions, a.StaysIn fun d => d.components = directory.components) {p : Path}
    {s : Symbols} {v : Variant}
    (hv : ((new config files).run actions).snapshot.index.get? p s = some v) :
    v.RelativeTo directory := by
  have hrun : ((new config files).run actions).Sound ∧
      ((new config files).run actions).Located (fun d => d.components = directory.components) ∧
      Holding (fun _ _ _ _ => True) (fun _ _ _ v => v.RelativeTo directory)
        ((new config files).run actions) := by
    refine run_preserves_mem (P := fun ix => ix.Sound ∧
      ix.Located (fun d => d.components = directory.components) ∧
      Holding (fun _ _ _ _ => True) (fun _ _ _ v => v.RelativeTo directory) ix) ?_
      ⟨sound_new config files, located_new _ config files, ?_⟩
    · rintro ix ix' a ha hevent ⟨hsound, hlocated, hholding⟩
      refine ⟨event_sound hevent hsound,
        event_located hevent (hstays a ha) hsound.ordered hlocated, ?_⟩
      refine event_holding hevent hsound ⟨fun _ hv => hv, fun _ _ => trivial⟩ ?_ hholding
      intro r w running _ hprevious
      exact Walk.upholds_relativeTo (hlocated.running running) hprevious
    · refine ⟨?_, by simp [new], by simp [new]⟩
      intro p s v hv
      simp [new] at hv
  exact hrun.2.2.snapshot p s v hv

/-- Take a pass that gets its turn in any run and completes, with what it has found out of the
files, as long as no later pass has published. A published variant that the pass took over has the
relative path that it had before; any other has the one below the directory of the pass. So a
relative path is right for the project of the pass exactly where the variant was not taken over or
had it right before; and all are right as long as no project was ever established in another
directory. -/
theorem relative_paths_of_taken_over (config : Config) (files : Memory) (actions : List Action)
    (a : Action) (r : Running) (after : List Action) (summary : Summary)
    (begins : ((new config files).run actions).Begins a r)
    (completed : (r.call, .completed summary) ∈
      ((((new config files).run actions).act a).run after).outcomes)
    (latest : ((((new config files).run actions).act a).run after).snapshot.pass ≤ r.plan.pass) :
    let start := ((new config files).run actions).act a
    let found := start.findings r.call after
    let published := (start.run after).snapshot.index
    (∀ p s v, published.get? p s = some v →
      ((∃ u, r.plan.Reuses found p s u ∧ v.path = u.path ∧
        v.relativePath = u.relativePath) ∨
        (∀ u, ¬ r.plan.Reuses found p s u) ∧
          v.relativePath = v.path.relativeTo r.plan.directory) ∧
      (v.relativePath = v.path.relativeTo r.plan.directory ↔
        ∀ u, r.plan.Reuses found p s u →
          u.relativePath = u.path.relativeTo r.plan.directory)) ∧
    ((∀ d request, .call (.initial d request) ∈ actions ++ [a] →
        d.normalized.components = r.plan.directory.components) →
      ∀ p s v, published.get? p s = some v →
        v.relativePath = v.path.relativeTo r.plan.directory) := by
  intro start found published
  have hsound := run_sound (sound_new config files) actions
  have hcanonical := (canonical_run config files (actions ++ [a])).snapshot
  rw [run_append, run_cons, run_nil] at hcanonical
  obtain ⟨w, _, _, hshown, hverdict⟩ := begins.completed hsound hcanonical completed
  have hpublished : ∀ p s v, published.get? p s = some v →
      Walk.Verdict r.plan found p s v := fun p s v hv =>
    hverdict p s v ((hshown latest p s).symm.trans hv)
  refine ⟨fun p s v hv =>
    ⟨(hpublished p s v hv).relative, (hpublished p s v hv).relativeTo_iff⟩, ?_⟩
  intro hhome p s v hv
  rw [← Variant.RelativeTo, (hpublished p s v hv).relativeTo_iff]
  intro u hu
  have hprevious : ((new config files).run (actions ++ [a])).snapshot.index.get? p s = some u := by
    rw [run_append, run_cons, run_nil, ← begins.previous hsound]
    exact hu.1
  refine relativeTo_run config files ?_ hprevious
  intro b hb
  unfold Action.StaysIn
  split
  · exact hhome _ _ hb
  · trivial

/-- A project is parsed; then a directory inside it is established as the project, whose entry
file is one of the files parsed before. -/
def innerProject : List Action :=
  [.write ⟨"/p/main.asm"⟩ "#import \"sub/main.asm\"\n",
    .write ⟨"/p/sub/main.asm"⟩ "#import \"x.asm\"\n", .call (.initial ⟨"/p"⟩ {})] ++
    List.replicate 17 .advance ++ [.write ⟨"/p/sub/x.asm"⟩ ""]

/-- The indexer when the pass of the inner project has got its turn. -/
def innerStart : Indexer := ((new {} {}).run innerProject).act (.call (.initial ⟨"/p/sub"⟩ {}))

/-- The indexer when the pass of the inner project is over. -/
def innerEnd : Indexer := innerStart.run (List.replicate 20 .advance)

theorem inner_evaluated :
    (((new {} {}).run innerProject).running.isNone &&
      (innerStart.running.any fun r =>
        r.call == 1 && r.plan.pass == 2 && r.plan.directory == ⟨"/p/sub"⟩) &&
      innerEnd.snapshot.pass == 2 && (innerEnd.outcomes.any fun x => x.1 == 1 && x.2.published) &&
      (innerEnd.snapshot.index.get? ⟨"/p/sub/main.asm"⟩ Symbols.empty).any fun v =>
        v.relativePath == ⟨"sub/main.asm"⟩ &&
          v.path.relativeTo ⟨"/p/sub"⟩ == ⟨"main.asm"⟩) =
      true := by
  decide +kernel

/-- The pass of the inner project publishes the entry file with its path below the outer one. -/
theorem relative_path_of_outer_project :
    (∃ r, innerStart.running = some r ∧ r.plan.directory = ⟨"/p/sub"⟩ ∧
        innerEnd.snapshot.pass = r.plan.pass) ∧
      ∃ v, innerEnd.snapshot.index.get? ⟨"/p/sub/main.asm"⟩ Symbols.empty = some v ∧
        v.relativePath ≠ v.path.relativeTo ⟨"/p/sub"⟩ := by
  have h := inner_evaluated
  simp only [Bool.and_eq_true, Option.any_eq_true, beq_iff_eq] at h
  obtain ⟨⟨⟨⟨_, r, hr, ⟨_, hpass⟩, hdirectory⟩, hlatest⟩, _⟩, v, hv, hrelative,
    hright⟩ := h
  refine ⟨⟨r, hr, hdirectory, hlatest.trans hpass.symm⟩, v, hv, ?_⟩
  rw [hrelative, hright]
  decide

/-- That pass took the entry file over. -/
theorem relative_paths_of_taken_over_inner :
    ∃ r summary, ((new {} {}).run innerProject).Begins (.call (.initial ⟨"/p/sub"⟩ {})) r ∧
      (r.call, .completed summary) ∈ innerEnd.outcomes ∧
      innerEnd.snapshot.pass ≤ r.plan.pass ∧
      ∃ u, r.plan.Reuses (innerStart.findings r.call (List.replicate 20 .advance))
          ⟨"/p/sub/main.asm"⟩ Symbols.empty u ∧ u.relativePath = ⟨"sub/main.asm"⟩ := by
  have h := inner_evaluated
  simp only [Bool.and_eq_true, Option.isNone_iff_eq_none, Option.any_eq_true, beq_iff_eq,
    List.any_eq_true] at h
  obtain ⟨⟨⟨⟨hidle, r, hr, ⟨hcall, hpass⟩, hdirectory⟩, hlatest⟩, ⟨k, o⟩, hmem,
    rfl, ho⟩, v, hv,
    hrelative, hright⟩ := h
  cases o with
  | completed summary =>
      have hbegins : ((new {} {}).run innerProject).Begins (.call (.initial ⟨"/p/sub"⟩ {})) r :=
        ⟨fun r' hr' => (by cases hidle.symm.trans hr'), hr⟩
      have hle : innerEnd.snapshot.pass ≤ r.plan.pass := Nat.le_of_eq (hlatest.trans hpass.symm)
      rw [← hcall] at hmem
      have hlaw := relative_paths_of_taken_over {} {} innerProject
        (.call (.initial ⟨"/p/sub"⟩ {})) r (List.replicate 20 .advance) summary hbegins
      dsimp only at hlaw
      rw [← innerStart, ← innerEnd] at hlaw
      refine ⟨r, summary, hbegins, hmem, hle, ?_⟩
      rcases ((hlaw hmem hle).1 _ _ v hv).1 with ⟨u, hu, _, hsame⟩ | ⟨_, hmade⟩
      · exact ⟨u, hu, hsame.symm.trans hrelative⟩
      · rw [hdirectory, hright, hrelative] at hmade
        exact absurd hmade (by decide)
  | _ => cases ho

end Indexer

end AsmIndex

import AsmIndex.Proofs.Differences
import AsmIndex.Proofs.PassFindings

/-!
What a pass reports as changed. A variant keeps its identity from one index to the next exactly
where the text that it was made of is the same and its imports come to the same; a file is
reported as modified exactly where one of its variants has not kept its identity.
-/

namespace AsmIndex

/-- A pass found the text of a file and what its imports come to as they were. -/
def Plan.Unchanged (plan : Plan) (found : Findings) (p : Path) (s : Symbols) : Prop :=
  ∃ u, plan.Reuses found p s u ∧
    found.imports? p s = some (u.references, u.resolutionDiagnostics)

namespace Walk

section Verdict

variable {plan : Plan} {found : Findings} {p : Path} {s : Symbols} {v : Variant}

theorem Origin.inherited (h : Origin plan found p s v) :
    v.id.pass = plan.pass ∨ plan.Reuses found p s v := by
  cases h with
  | reused reuses => exact .inr reuses
  | scanned => exact .inl rfl

/-- The variant of a closed file says what came of its imports. -/
theorem Verdict.imports (h : Verdict plan found p s v) :
    found.imports? p s = some (v.references, v.resolutionDiagnostics) := by
  cases h with
  | kept _ imports => exact imports
  | replaced _ imports _ => exact imports

theorem Verdict.inherited (h : Verdict plan found p s v) :
    v.id.pass = plan.pass ∨ plan.Reuses found p s v := by
  cases h with
  | kept origin => exact origin.inherited
  | replaced => exact .inl rfl

/-- A file that is unchanged is closed with its previous variant. -/
theorem Verdict.reuses_of_unchanged (h : Verdict plan found p s v)
    (hunchanged : plan.Unchanged found p s) : plan.Reuses found p s v := by
  obtain ⟨u, hreuses, himports⟩ := hunchanged
  cases h with
  | kept origin _ =>
      cases origin with
      | reused reuses => exact reuses
      | scanned _ hnone => exact absurd hreuses (hnone u)
  | replaced origin imports changed =>
      cases origin with
      | reused reuses =>
          obtain rfl : _ = u := Option.some.inj (reuses.1.symm.trans hreuses.1)
          obtain ⟨hreferences, hproblems⟩ :=
            Prod.mk.inj (Option.some.inj (imports.symm.trans himports))
          exact absurd ⟨hreferences, hproblems⟩ changed
      | scanned _ hnone => exact absurd hreuses (hnone u)

theorem Verdict.eq_of_id (h : Verdict plan found p s v)
    (hold : ∀ u, plan.previous.get? p s = some u → u.id.pass < plan.pass) {u : Variant}
    (hu : plan.previous.get? p s = some u) (hid : u.id = v.id) : u = v := by
  rcases h.inherited with hpass | hreuses
  · have hlt := hold u hu
    rw [hid, hpass] at hlt
    exact absurd hlt (Nat.lt_irrefl _)
  · exact Option.some.inj (hu.symm.trans hreuses.1)

/-- A variant keeps its identity exactly where nothing of its file changed. -/
theorem Verdict.previous_iff (h : Verdict plan found p s v)
    (hold : ∀ u, plan.previous.get? p s = some u → u.id.pass < plan.pass) :
    plan.previous.get? p s = some v ↔ plan.Unchanged found p s := by
  constructor
  · intro hprevious
    rcases h.inherited with hpass | hreuses
    · exact absurd hpass (Nat.ne_of_lt (hold v hprevious))
    · exact ⟨v, hreuses, h.imports⟩
  · intro hunchanged
    exact (h.reuses_of_unchanged hunchanged).1

end Verdict

/-- Where variants keep their identity exactly if nothing of their file changed, the modified
files are those whose keys differ or of which something changed. -/
theorem modified_iff_changed {plan : Plan} {found : Findings} {index : Index}
    (hold : ∀ p s u, plan.previous.get? p s = some u → u.id.pass < plan.pass)
    (hindex : ∀ p s v, index.get? p s = some v → Verdict plan found p s v) (p : Path) :
    (∃ q ∈ (Changes.between plan.previous index).modified, q.components = p.components) ↔
      plan.previous.containsPath p = true ∧ index.containsPath p = true ∧
        ((∃ s, plan.previous.contains p s ≠ index.contains p s) ∨
          ∃ s, index.contains p s = true ∧ ¬ plan.Unchanged found p s) := by
  rw [Changes.modified_iff]
  refine and_congr_right fun _ => and_congr_right fun _ => ?_
  constructor
  · rintro ⟨s, hne⟩
    cases hnew : index.get? p s with
    | none =>
        refine .inl ⟨s, fun hsame => hne ?_⟩
        simp only [Index.contains, hnew, Option.isSome_none, Option.isSome_eq_false_iff,
          Option.isNone_iff_eq_none] at hsame
        simp [hnew, hsame]
    | some v =>
        refine .inr ⟨s, Index.contains_iff.2 ⟨v, hnew⟩, fun hunchanged => hne ?_⟩
        rw [hnew, ((hindex p s v hnew).previous_iff (hold p s)).2 hunchanged]
  · rintro (⟨s, hne⟩ | ⟨s, hcontains, hchanged⟩)
    · refine ⟨s, fun hsame => hne ?_⟩
      have hsome := congrArg Option.isSome hsame
      simpa [Index.contains] using hsome.symm
    · obtain ⟨v, hnew⟩ := Index.contains_iff.1 hcontains
      refine ⟨s, fun hsame => hchanged ?_⟩
      rw [hnew, Option.map_some] at hsame
      obtain ⟨u, hu, hid⟩ := Option.map_eq_some_iff.1 hsame.symm
      have hverdict := hindex p s v hnew
      rw [hverdict.eq_of_id (hold p s) hu hid] at hu
      exact (hverdict.previous_iff (hold p s)).1 hu

end Walk

namespace Indexer

/-- Take a pass that gets its turn in any run and completes, whatever else happens meanwhile, with
what it has found out of the files. It has computed an index, and a variant of it is the one of
the previous index exactly where the previous variant was made of the same buffer or of the stored
file of the same time, and its imports came to the same. So a file is reported as modified exactly
where it is in both indexes and its variants are under other symbols or one of them fails that
test. -/
theorem change_detection_exact (config : Config) (files : Memory) (actions : List Action)
    (a : Action) (r : Running) (after : List Action) (summary : Summary)
    (begins : ((new config files).run actions).Begins a r)
    (completed : (r.call, .completed summary) ∈
      ((((new config files).run actions).act a).run after).outcomes) :
    let start := ((new config files).run actions).act a
    let old := start.snapshot.index
    let found := start.findings r.call after
    r.plan.previous = old ∧ ∃ index, start.Computes after r.call index ∧
      summary.changes = Changes.between old index ∧
      (∀ p s v, index.get? p s = some v →
        found.imports? p s = some (v.references, v.resolutionDiagnostics) ∧
        (∀ u, old.get? p s = some u → (u.id = v.id ↔ u = v)) ∧
        (old.get? p s = some v ↔ r.plan.Unchanged found p s)) ∧
      ∀ p, (∃ q ∈ summary.changes.modified, q.components = p.components) ↔
        old.containsPath p = true ∧ index.containsPath p = true ∧
          ((∃ s, old.contains p s ≠ index.contains p s) ∨
            ∃ s, index.contains p s = true ∧ ¬ r.plan.Unchanged found p s) := by
  intro start old found
  have hsound := run_sound (sound_new config files) actions
  have hcanonical := (canonical_run config files (actions ++ [a])).snapshot
  rw [run_append, run_cons, run_nil] at hcanonical
  have hprevious : r.plan.previous = old := begins.previous hsound
  have holder := begins.older hsound
  obtain ⟨w, hcomputes, rfl, _, hverdict⟩ := begins.completed hsound hcanonical completed
  refine ⟨hprevious, w.index, hcomputes, by rw [← hprevious]; rfl, ?_, ?_⟩
  · intro p s v hv
    have hv := hverdict p s v hv
    rw [← hprevious]
    refine ⟨hv.imports, fun u hu => ⟨hv.eq_of_id (holder p s) hu, congrArg Variant.id⟩, ?_⟩
    exact hv.previous_iff (holder p s)
  · intro p
    rw [← hprevious]
    exact Walk.modified_iff_changed holder hverdict p

/-- Three files of which each imports the next, parsed; then the last one is written anew. -/
def editedImport : List Action :=
  [.write ⟨"/p/main.asm"⟩ "#import \"a.asm\"\n", .write ⟨"/p/a.asm"⟩ "#import \"b.asm\"\n",
    .write ⟨"/p/b.asm"⟩ "", .call (.initial ⟨"/p"⟩ {})] ++ List.replicate 25 .advance ++
    [.write ⟨"/p/b.asm"⟩ "nop\n"]

/-- The files that a call reports as changed. -/
def changesOf : Outcome → Changes
  | .completed summary => summary.changes
  | _ => {}

/-- The pass that follows reports the file that was written and not the one that imports it, which
it found unchanged under all its symbols. -/
theorem change_detection_exact_edit :
    ∃ r summary, ((new {} {}).run editedImport).Begins (.call (.parse {})) r ∧
      (r.call, .completed summary) ∈ ((((new {} {}).run editedImport).act (.call (.parse {}))).run
        (List.replicate 25 .advance)).outcomes ∧
      summary.changes.modified = [⟨"/p/b.asm"⟩] ∧
      ∃ index, (((new {} {}).run editedImport).act (.call (.parse {}))).Computes
          (List.replicate 25 .advance) r.call index ∧
        index.containsPath ⟨"/p/a.asm"⟩ = true ∧
        ∀ s, index.contains ⟨"/p/a.asm"⟩ s = true → r.plan.Unchanged
          ((((new {} {}).run editedImport).act (.call (.parse {}))).findings r.call
            (List.replicate 25 .advance)) ⟨"/p/a.asm"⟩ s := by
  have hidle : ((new {} {}).run editedImport).running.isNone = true := by decide +kernel
  have hturn : ((((new {} {}).run editedImport).act (.call (.parse {}))).running.any
      fun r => r.call == 1) = true := by
    decide +kernel
  have houtcome : (((((new {} {}).run editedImport).act (.call (.parse {}))).run
      (List.replicate 25 .advance)).outcomes.any fun x =>
        x.1 == 1 && changesOf x.2 == ⟨[], [⟨"/p/b.asm"⟩], []⟩) = true := by
    decide +kernel
  have hold : (((new {} {}).run editedImport).act (.call (.parse {}))).snapshot.index.containsPath
      ⟨"/p/a.asm"⟩ = true := by
    decide +kernel
  simp only [Option.isNone_iff_eq_none, Option.any_eq_true, beq_iff_eq] at hidle hturn
  obtain ⟨r, hr, hcall⟩ := hturn
  obtain ⟨⟨k, o⟩, hmem, hx⟩ := List.any_eq_true.1 houtcome
  simp only [Bool.and_eq_true, beq_iff_eq] at hx
  obtain ⟨rfl, ho⟩ := hx
  cases o with
  | completed summary =>
      have hbegins : ((new {} {}).run editedImport).Begins (.call (.parse {})) r :=
        ⟨fun r' hr' => (by cases hidle.symm.trans hr'), hr⟩
      rw [← hcall] at hmem
      replace ho : summary.changes = ⟨[], [⟨"/p/b.asm"⟩], []⟩ := ho
      obtain ⟨_, index, hcomputes, hchanges, _, hmodified⟩ :=
        change_detection_exact {} {} editedImport _ r _ summary hbegins hmem
      have hnew : index.containsPath ⟨"/p/a.asm"⟩ = true := by
        by_contra hdeleted
        have h := Changes.deleted_iff.2 ⟨hold, Bool.eq_false_iff.2 hdeleted⟩
        rw [← hchanges, ho] at h
        simp at h
      refine ⟨r, summary, hbegins, hmem, by rw [ho], index, hcomputes, hnew, fun s hs => ?_⟩
      by_contra hchanged
      have h := (hmodified ⟨"/p/a.asm"⟩).2 ⟨hold, hnew, .inr ⟨s, hs, hchanged⟩⟩
      rw [ho] at h
      revert h
      decide
  | _ => cases ho

end Indexer

end AsmIndex

import AsmIndex.CommandLine
import AsmIndex.Proofs.ChangeAlgebra
import AsmIndex.Proofs.UniqueDiagnostics

/-!
The diagnostics of a report. The report puts the diagnostics of all variants in order of place and
drops those that repeat the one before. Entries at the same place are the same in the index of a
first pass; so nothing else is dropped, no two entries are left at a place, and the order in which
variants are gone through does not show.
-/

namespace AsmIndex

namespace Report

namespace DiagnosticEntry

/-- The entry stands before another one: in an earlier file, or earlier in the same file. -/
def Precedes (a b : DiagnosticEntry) : Prop :=
  compare a.path b.path = .lt ∨ a.path.components = b.path.components ∧
    (a.line < b.line ∨ a.line = b.line ∧ a.column < b.column)

instance : Std.TransCmp order :=
  inferInstanceAs (Std.TransCmp (compareLex (compareOn path) (compareLex (compareOn line)
    (compareOn column))))

theorem order_eq_iff {a b : DiagnosticEntry} : order a b = .eq ↔
    a.path.components = b.path.components ∧ a.line = b.line ∧ a.column = b.column := by
  simp [order, Ordering.then_eq_eq, Path.compare_eq_iff]

theorem precedes_iff {a b : DiagnosticEntry} : a.Precedes b ↔ order a b = .lt := by
  simp [Precedes, order, Ordering.then_eq_lt, Path.compare_eq_iff, Nat.compare_eq_lt]

end DiagnosticEntry

open DiagnosticEntry

/-- Entries in order of place. -/
def inOrder (l : List DiagnosticEntry) : List DiagnosticEntry :=
  l.mergeSort fun a b => (order a b).isLE

/-- The entries of diagnostics of files, in order and without repetition. -/
def entriesOf (ds : List (Path × Diagnostic)) : List DiagnosticEntry :=
  dropRepeated (inOrder (ds.map fun (p, d) => DiagnosticEntry.of p d))

section Sorted

variable {l l' : List DiagnosticEntry}

/-- Entries at the same place are the same. -/
def Distinct (l : List DiagnosticEntry) : Prop :=
  ∀ a ∈ l, ∀ b ∈ l, order a b = .eq → a = b

theorem Distinct.subset (h : Distinct l) (hsub : l' ⊆ l) : Distinct l' :=
  fun a ha b hb => h a (hsub ha) b (hsub hb)

theorem mem_dropRepeated (h : Distinct l) (e : DiagnosticEntry) :
    e ∈ dropRepeated l ↔ e ∈ l := by
  fun_induction dropRepeated l with
  | case1 => rfl
  | case2 a => rfl
  | case3 a b rest hsame ih =>
      obtain rfl : a = b := h a (by simp) b (by simp) (by simp_all [same])
      rw [ih (h.subset (List.subset_cons_self a _))]
      simp
  | case4 a b rest hsame ih =>
      simp only [List.mem_cons, ih (h.subset (List.subset_cons_self a _))]

theorem pairwise_dropRepeated (h : Distinct l) (hsorted : l.Pairwise fun a b => (order a b).isLE) :
    (dropRepeated l).Pairwise Precedes := by
  fun_induction dropRepeated l with
  | case1 => exact .nil
  | case2 a => exact List.pairwise_singleton _ _
  | case3 a b rest hsame ih =>
      have hsub : (a :: rest).Sublist (a :: b :: rest) :=
        (List.sublist_cons_self b rest).cons_cons a
      exact ih (h.subset hsub.subset) (hsorted.sublist hsub)
  | case4 a b rest hsame ih =>
      have hsub : b :: rest ⊆ a :: b :: rest := List.subset_cons_self a _
      obtain ⟨hle, hrest⟩ := List.pairwise_cons.1 hsorted
      have hlt : order a b = .lt := by
        refine (Ordering.isLE_iff_eq_lt_or_eq_eq.1 (hle b (by simp))).resolve_right fun heq => ?_
        obtain rfl := h a (by simp) b (by simp) heq
        exact hsame (by simp [same, heq])
      refine List.pairwise_cons.2 ⟨fun e he => ?_, ih (h.subset hsub) hrest⟩
      rw [mem_dropRepeated (h.subset hsub), List.mem_cons] at he
      rw [precedes_iff]
      rcases he with rfl | he
      · exact hlt
      · exact Std.TransCmp.lt_of_lt_of_isLE hlt ((List.pairwise_cons.1 hrest).1 e he)

theorem inOrder_perm (l : List DiagnosticEntry) : (inOrder l).Perm l := List.mergeSort_perm l _

theorem pairwise_inOrder (l : List DiagnosticEntry) :
    (inOrder l).Pairwise fun a b => (order a b).isLE := by
  refine List.pairwise_mergeSort (fun a b c => Std.TransCmp.isLE_trans) (fun a b => ?_) l
  cases hab : order a b with
  | lt | eq => rfl
  | gt => simp [Std.OrientedCmp.lt_of_gt hab]

/-- What order entries are in before does not show, if those at the same place are the same. -/
theorem inOrder_eq (h : Distinct l) (hperm : l'.Perm l) : inOrder l' = inOrder l := by
  have hboth : (inOrder l').Perm (inOrder l) :=
    (inOrder_perm l').trans (hperm.trans (inOrder_perm l).symm)
  refine hboth.eq_of_pairwise (fun a b ha hb hab hba => ?_) (pairwise_inOrder l')
    (pairwise_inOrder l)
  have hl := (inOrder_perm l).subset
  exact h a (hl (hboth.subset ha)) b (hl hb) (Std.OrientedCmp.isLE_antisymm hab hba)

theorem entriesOf_eq {ds ds' : List (Path × Diagnostic)}
    (h : Distinct (ds.map fun (p, d) => DiagnosticEntry.of p d)) (hperm : ds'.Perm ds) :
    entriesOf ds' = entriesOf ds := by
  rw [entriesOf, inOrder_eq h (hperm.map _), entriesOf]

theorem mem_entriesOf {ds : List (Path × Diagnostic)}
    (h : Distinct (ds.map fun (p, d) => DiagnosticEntry.of p d)) (e : DiagnosticEntry) :
    e ∈ entriesOf ds ↔ ∃ p d, (p, d) ∈ ds ∧ e = DiagnosticEntry.of p d := by
  rw [entriesOf, mem_dropRepeated (h.subset (inOrder_perm _).subset), (inOrder_perm _).mem_iff]
  simp [eq_comm]

theorem pairwise_entriesOf {ds : List (Path × Diagnostic)}
    (h : Distinct (ds.map fun (p, d) => DiagnosticEntry.of p d)) :
    (entriesOf ds).Pairwise Precedes :=
  pairwise_dropRepeated (h.subset (inOrder_perm _).subset) (pairwise_inOrder _)

end Sorted

end Report

namespace Index

/-- The diagnostics of an index are those of its variants. -/
theorem mem_diagnostics {ix : Index} {p : Path} {d : Diagnostic} :
    (p, d) ∈ ix.diagnostics ↔
      p ∈ ix.paths ∧ ∃ s v, ix.get? p s = some v ∧ d ∈ v.allDiagnostics := by
  constructor
  · intro h
    obtain ⟨⟨q, set⟩, hset, h⟩ := List.mem_flatMap.1 h
    obtain ⟨v, hv, h⟩ := List.mem_flatMap.1 h
    obtain ⟨d', hd, heq⟩ := List.mem_map.1 h
    cases heq
    obtain ⟨⟨s, _⟩, hs, rfl⟩ := List.mem_map.1 hv
    exact ⟨List.mem_map.2 ⟨_, hset, rfl⟩, s, _, get?_of_mem_entries hset hs, hd⟩
  · rintro ⟨hp, s, v, hv, hd⟩
    obtain ⟨⟨q, set⟩, hset, rfl⟩ := List.mem_map.1 hp
    obtain ⟨set', hset', hv⟩ := get?_eq_some.1 hv
    cases (OrderedMap.get?_of_mem_entries hset).symm.trans hset'
    obtain ⟨t, _, hentry⟩ := OrderedMap.mem_entries_of_get? hv
    refine List.mem_flatMap.2 ⟨_, hset,
      List.mem_flatMap.2 ⟨v, ?_, List.mem_map.2 ⟨d, hd, rfl⟩⟩⟩
    exact List.mem_map.2 ⟨_, hentry, rfl⟩

/-- The paths of an index are told by their components. -/
theorem eq_of_mem_paths {ix : Index} {p q : Path} (hp : p ∈ ix.paths) (hq : q ∈ ix.paths)
    (h : p.components = q.components) : p = q :=
  List.inj_on_of_nodup_map ix.ascending_paths.nodup hp hq h

end Index

theorem Project.normalized_entry (directory : Path) (entryFile : String) :
    (Project.of directory entryFile).entry.normalized = (Project.of directory entryFile).entry := by
  unfold Project.of Path.normalized
  cases h : (directory.join ⟨entryFile⟩).normal? with
  | none => simp [h]
  | some q => simp [Path.normal?_normal? h]

namespace CommandLine

open Report DiagnosticEntry

/-- The first pass over the project of a directory completes with an index, while the files stay as
`view` shows them. -/
def Completes (config : Config) (directory : Path) (request : Request) (view : FileView)
    (ix : Index) :
    Prop :=
  let project := Project.of directory config.entryFile
  ∃ n, indexOf project.entry
    ((firstWalk config project request).run (firstPlan config project request) view n) = .ok ix

variable {config : Config} {directory : Path} {request : Request} {view : FileView} {ix : Index}

theorem indexOf_eq_ok {entry : Path} {w : Walk} (h : indexOf entry w = .ok ix) :
    w.ending? = some .complete ∧ w.index = ix := by
  unfold indexOf at h
  split at h
  · rename_i hend
    cases h
    exact ⟨hend, rfl⟩
  all_goals cases h

/-- A first pass that completes has one diagnostic at a place of a file. -/
theorem Completes.distinct (h : Completes config directory request view ix) :
    Distinct (ix.diagnostics.map fun (p, d) => DiagnosticEntry.of p d) := by
  obtain ⟨n, hn⟩ := h
  have hentry := Project.normalized_entry directory config.entryFile
  generalize Project.of directory config.entryFile = project at hn hentry
  obtain ⟨hend, rfl⟩ := indexOf_eq_ok hn
  have haccounts : ((firstWalk config project request).run (firstPlan config project request) view
      n).Accounts (firstPlan config project request) view project.entry :=
    Walk.accounts_run (fun _ _ => rfl) _ _ n
  intro a ha b hb hplace
  obtain ⟨⟨p, d⟩, hpd, rfl⟩ := List.mem_map.1 ha
  obtain ⟨⟨q, e⟩, hqe, rfl⟩ := List.mem_map.1 hb
  obtain ⟨hp, s, u, hu, hd⟩ := Index.mem_diagnostics.1 hpd
  obtain ⟨hq, t, v, hv, he⟩ := Index.mem_diagnostics.1 hqe
  obtain ⟨hpath, hline, hcolumn⟩ := order_eq_iff.1 hplace
  obtain rfl := Index.eq_of_mem_paths hp hq hpath
  obtain rfl := haccounts.unique hentry hend hu hv rfl hd he
    (Nat.succ.inj hline) (Nat.succ.inj hcolumn)
  rfl

/-- The report of a completed first pass has the diagnostics of all variants in strict order of
their places: each one stands in it once, whatever the number of variants that have it, and
nothing else does. The order in which the variants are gone through does not matter. -/
theorem diagnostics_reported_once (config : Config) (directory : Path) (request : Request)
    (view : FileView) (ix : Index) (h : Completes config directory request view ix) (root : Path)
    (found : List (List String)) :
    let report := Report.of (Project.of directory config.entryFile).entry root config ix found
    report.diagnostics.Pairwise Precedes ∧
    (∀ e, e ∈ report.diagnostics ↔ ∃ p ∈ ix.paths, ∃ s v d, ix.get? p s = some v ∧
      (d ∈ v.diagnostics ∨ d ∈ v.resolutionDiagnostics) ∧
      e = ⟨p, d.line + 1, d.column + 1, d.severity, d.message⟩) ∧
    ∀ ds : List (Path × Diagnostic), ds.Perm ix.diagnostics →
    entriesOf ds = report.diagnostics := by
  intro report
  have hdistinct := h.distinct
  refine ⟨pairwise_entriesOf hdistinct, fun e => ?_, fun ds hds => entriesOf_eq hdistinct hds⟩
  refine (mem_entriesOf hdistinct e).trans ⟨?_, ?_⟩
  · rintro ⟨p, d, hd, rfl⟩
    obtain ⟨hp, s, v, hv, hd⟩ := Index.mem_diagnostics.1 hd
    exact ⟨p, hp, s, v, d, hv, List.mem_append.1 hd, rfl⟩
  · rintro ⟨p, hp, s, v, d, hv, hd, rfl⟩
    exact ⟨p, d, Index.mem_diagnostics.2 ⟨hp, s, v, hv, List.mem_append.2 hd⟩, rfl⟩

/-- A file that is imported under two sets of symbols, with a diagnostic under both and others under
one. -/
def twofold : Memory :=
  (({} : Memory).write ⟨"/p/main.asm"⟩ "#import \"a\"\n#define X\n#import \"a\"").write
    ⟨"/p/a"⟩
    "#if X\nlda \"a\n#import \"b\""

/-- What the first pass over these files comes to. -/
def twofoldWalk : Walk :=
  let project := Project.of ⟨"/p"⟩ ({} : Config).entryFile
  (firstWalk {} project {}).run (firstPlan {} project {}) twofold.view 30

theorem diagnostics_reported_once_twofold :
    ∃ ix, Completes {} ⟨"/p"⟩ {} twofold.view ix ∧ ix.diagnostics.length = 4 ∧
      (diagnosticEntries ix).Pairwise Precedes ∧
      ⟨⟨"/p/a"⟩, 1, 1, .error, "#if without matching #endif"⟩ ∈ diagnosticEntries ix ∧
      entriesOf ix.diagnostics.reverse = diagnosticEntries ix := by
  have hend : twofoldWalk.ending? = some .complete ∧
      twofoldWalk.index.diagnostics.length = 4 := by
    decide +kernel
  have hcompletes : Completes {} ⟨"/p"⟩ {} twofold.view twofoldWalk.index := by
    refine ⟨30, ?_⟩
    change indexOf _ twofoldWalk = _
    rw [indexOf, hend.1]
  have hopen : (twofoldWalk.index.get? ⟨"/p/a"⟩ Symbols.empty).any
      (·.diagnostics.contains ⟨0, 0, .error, .directive, "#if without matching #endif"⟩) =
        true := by
    decide +kernel
  obtain ⟨v, hv, hd⟩ := (Option.any_eq_true _ _).1 hopen
  obtain ⟨hpairwise, hmem, hperm⟩ :=
    diagnostics_reported_once {} ⟨"/p"⟩ {} twofold.view _ hcompletes ⟨"/p"⟩ []
  refine ⟨_, hcompletes, hend.2, hpairwise, (hmem _).2 ?_, hperm _ (List.reverse_perm _)⟩
  exact ⟨⟨"/p/a"⟩, by decide +kernel, Symbols.empty, v, _, hv,
    .inl (List.contains_iff_mem.1 hd), rfl⟩

end CommandLine

end AsmIndex

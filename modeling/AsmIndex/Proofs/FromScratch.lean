import AsmIndex.Proofs.ProjectSettings
import AsmIndex.Proofs.WalkMirror

/-!
Incremental passes and passes from scratch. An indexer that has parsed one project many times
takes over what it knows of unchanged files. While the project stays in its directory, the index
that it computes is the one that a new indexer computes from the same files, settings and request.
-/

namespace AsmIndex

namespace Indexer

/-- The action leaves the project in `directory` and does not change which reads fail. -/
def Action.Stays (directory : Path) : Action → Prop
  | .call (.initial d _) => d = directory
  | .failReads _ => False
  | _ => True

section Located

variable {directory : Path} {ix : Indexer}

theorem Action.Stays.staysIn {a : Action} (h : a.Stays directory) :
    a.StaysIn (· = directory.normalized) := by
  unfold Action.StaysIn
  split
  · exact congrArg Path.normalized h
  · trivial

theorem Located.project (hix : ix.Located (· = directory)) {project : Project}
    (established : ix.project = some project) :
    project = Project.of directory ix.config.entryFile := by
  rw [← hix.home established]
  exact hix.aligned.project established

end Located

/-- An indexer whose project stays in `directory` while the reads of `failing` fail. -/
structure Based (failing : OrderedMap Path Unit) (directory : Path) (ix : Indexer) : Prop where
  fresh : ix.Fresh
  established : ix.Located (· = directory)
  reads : ix.files.failing = failing
  settled : Holding (fun _ _ _ _ => True) (fun _ p _ v => v.Settled failing directory p) ix

section Based

variable {failing : OrderedMap Path Unit} {directory : Path} {ix ix' : Indexer} {a : Action}

theorem event_failing (h : Event ix a ix') (hstays : a.Stays directory) :
    ix'.files.failing = ix.files.failing := by
  rcases event_files h with hsame | hchange
  · exact hsame.failing
  · generalize ix'.files = m at hchange
    cases hchange with
    | failReads path => exact hstays.elim
    | _ => rfl

theorem event_based (h : Event ix a ix') (hstays : a.Stays directory)
    (hix : ix.Based failing directory.normalized) : ix'.Based failing directory.normalized where
  fresh := event_fresh h hix.fresh
  established := event_located h hstays.staysIn hix.fresh.sound.ordered hix.established
  reads := (event_failing h hstays).trans hix.reads
  settled := by
    refine event_holding h hix.fresh.sound ⟨fun _ hv => hv, fun _ _ => trivial⟩ ?_ hix.settled
    intro r w running _ hprevious
    have hdirectory := hix.established.running running
    rw [← hix.reads, ← hdirectory] at hprevious ⊢
    exact upholds_settled hprevious

theorem based_new (config : Config) (failing : OrderedMap Path Unit) (directory : Path) :
    (new config { failing }).Based failing directory where
  fresh := fresh_new config (by intro p f hf; cases hf)
  established := located_new _ _ _
  reads := rfl
  settled := by
    refine ⟨?_, by simp [new], by simp [new]⟩
    intro p s v hv
    simp [new] at hv

/-- A pass may take over whatever the indexer has published. -/
theorem Based.trusts (hix : ix.Based failing directory) {project : Project}
    (hproject : project.directory = directory) (id : Nat) (request : Request) :
    (ix.planOf id project request).Trusts ix.files := by
  intro p s v hv
  refine ⟨hix.fresh.holding.snapshot p s v hv, ?_⟩
  have hsettled := hix.settled.snapshot p s v hv
  rw [← hix.reads, ← hproject] at hsettled
  exact hsettled

end Based

/-- The first pass of a new indexer. -/
def firstPass (config : Config) (m : Memory) (directory : Path) (request : Request) : Running :=
  (new config m).begun 0 1 (Project.of directory.normalized config.entryFile) request

section FirstPass

variable {config : Config} {m : Memory} {directory : Path} {request : Request} {w : Walk}

/-- What a new indexer executes is its first pass, whose walk comes to its end. -/
theorem Executes.firstPass {during : List Action} {r : Running} {index : Index}
    (h : (new config m).Executes (.call (.initial directory request)) during r index)
    (phase : (firstPass config m directory request).phase = .walking w) :
    r = Indexer.firstPass config m directory request ∧
      ∃ n, (w.run r.plan m.view n).ending? = some .complete ∧
        (w.run r.plan m.view n).index = index := by
  obtain rfl : Indexer.firstPass config m directory request = r := Option.some.inj h.turn
  exact ⟨rfl, h.run (sound_new config m) phase⟩

/-- Once the gates are open, a new indexer executes its first pass if the walk comes to its end. -/
theorem exists_executes_firstPass
    (phase : (firstPass config m directory request).phase = .walking w) {k : Nat}
    (hend : (w.run (firstPass config m directory request).plan m.view k).ending? = some .complete) :
    ∃ n r index, (new config m).Executes (.call (.initial directory request))
      (.openGate :: List.replicate n .advance) r index := by
  let ix := ((new config m).act (.call (.initial directory request))).act .openGate
  have running : ix.running = some (firstPass config m directory request) := rfl
  have hvalid : ix.isCancelled (firstPass config m directory request).plan.pass = false := rfl
  obtain ⟨n, hn⟩ := run_advance running phase rfl hvalid k
  refine ⟨n, firstPass config m directory request,
    (w.run (firstPass config m directory request).plan m.view k).index, ?_, rfl, ?_, ?_⟩
  · intro r' running'
    cases running'
  · intro b hb
    rcases List.mem_cons.1 hb with rfl | hb
    · rfl
    · rw [List.eq_of_mem_replicate hb]
      rfl
  · exact ⟨.openGate :: List.replicate n .advance, [], _, _, by simp, hn, rfl, rfl, hend, rfl⟩

end FirstPass

theorem afresh_planOf (ix : Indexer) (id : Nat) (project : Project) (request : Request) :
    (ix.planOf id project request).Afresh ((new ix.config ix.files).planOf 1 project request) where
  directory := rfl
  libraries := rfl
  severity := rfl
  live := rfl
  previous := fun _ _ => rfl

/-- Take any run of an indexer whose project stays in one directory and in which the same reads
fail throughout. Where a pass gets its turn and comes to the end of its walk while no file
changes, a new indexer that is asked for the same project by the same request comes to the end of
its walk as well, and whenever it does, the two indexes agree. -/
theorem incremental_agrees_with_scratch (config : Config) (failing : OrderedMap Path Unit)
    (directory : Path) (before during : List Action) (a : Action) (r : Running) (index : Index)
    (hstays : ∀ b ∈ before ++ [a], b.Stays directory)
    (h : ((new config { failing }).run before).Executes a during r index) :
    let ix := ((new config { failing }).run before).act a
    let scratch := new ix.config ix.files
    ∃ request, ix.lastRequest = some request ∧
      (∃ n r' index', scratch.Executes (.call (.initial directory request))
        (.openGate :: List.replicate n .advance) r' index') ∧
      ∀ during' r' index',
        scratch.Executes (.call (.initial directory request)) during' r' index' →
        r'.project = r.project ∧ r'.phase = r.phase ∧ r.plan.Afresh r'.plan ∧
          index.Agrees index' := by
  intro ix scratch
  have hbefore : ((new config { failing }).run before).Based failing directory.normalized := by
    refine run_preserves_mem ?_ (based_new config failing directory.normalized)
    intro ix₁ ix₂ b hb hevent
    exact event_based hevent (hstays b (List.mem_append_left _ hb))
  obtain ⟨ix₁, call, id, project, request, reached, turn, hqueued, hvalid, rfl⟩ :=
    h.begins.begun
  have hbased : ix₁.Based failing directory.normalized := by
    rcases reached with rfl | hevent
    · exact hbefore
    · exact event_based hevent (hstays a (by simp)) hbefore
  obtain ⟨hfiles, hconfig, _, hlast⟩ := waits_settings (.inr turn)
  obtain ⟨hproject, hrequest⟩ := hbased.established.waiting hqueued hvalid
  obtain rfl := hbased.established.project hproject
  have hscratch : scratch = new ix₁.config ix₁.files := by
    simp only [scratch, ix, hfiles, hconfig]
  -- The walk of the pass, and the walk from scratch that mirrors it.
  obtain ⟨n, hend, rfl⟩ := h.run hbefore.fresh.sound rfl
  rw [hfiles] at hend ⊢
  obtain ⟨k, hend', hagrees⟩ := Walk.run_agrees (afresh_planOf ix₁ id _ request)
    (hbased.trusts rfl id request) _ _ hend
  refine ⟨request, hlast.trans hrequest, ?_, ?_⟩
  · rw [hscratch]
    exact exists_executes_firstPass rfl hend'
  · intro during' r' index' h'
    rw [hscratch] at h'
    obtain ⟨rfl, n', hend'', rfl⟩ := h'.firstPass rfl
    refine ⟨rfl, rfl, afresh_planOf ix₁ id _ request, ?_⟩
    rw [Walk.run_eq_of_ended hend'' hend']
    exact hagrees

/-- A second pass over a file that was rewritten, one that was not, and one whose reads fail. -/
theorem incremental_agrees_with_scratch_rewritten :
    let failing := OrderedMap.empty.insert ⟨"/p/b.asm"⟩ ()
    let before : List Action :=
      [.write ⟨"/p/main.asm"⟩ "#import \"a.asm\"\n#import \"b.asm\"\n",
        .write ⟨"/p/a.asm"⟩ "lda #1\n", .write ⟨"/p/b.asm"⟩ "",
        .call (.initial ⟨"/p"⟩ {})] ++
      List.replicate 20 .advance ++ [.write ⟨"/p/a.asm"⟩ "#importonce\n"]
    let ix := (new {} { failing }).run before
    let scratch := new (ix.act (.call (.parse {}))).config (ix.act (.call (.parse {}))).files
    ∃ r index, ix.Executes (.call (.parse {})) (List.replicate 17 .advance) r index ∧
      ∃ request n r' index', scratch.Executes (.call (.initial ⟨"/p"⟩ request))
        (.openGate :: List.replicate n .advance) r' index' ∧ index.Agrees index' := by
  intro failing before ix scratch
  obtain ⟨r, index, h⟩ : ∃ r index,
      ix.Executes (.call (.parse {})) (List.replicate 17 .advance) r index :=
    exists_executes (k := 1) (by decide +kernel) (by decide) (by decide +kernel)
      (by decide +kernel)
  have hstays : ∀ b ∈ before ++ [.call (.parse {})], b.Stays ⟨"/p"⟩ := by
    simp [before, Action.Stays]
  obtain ⟨request, _, ⟨n, r', index', h'⟩, hagrees⟩ :=
    incremental_agrees_with_scratch _ failing _ before _ _ r index hstays h
  exact ⟨r, index, h, request, n, r', index', h', (hagrees _ _ _ h').2.2.2⟩

end Indexer

end AsmIndex

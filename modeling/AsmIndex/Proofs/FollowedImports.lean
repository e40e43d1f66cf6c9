import AsmIndex.Proofs.WalkFrames

/-!
Imports that have been followed. While a file is open, its imports are followed one after the
other, and each comes out as found or with a problem; when the file is closed, its variant says of
its imports what came out. What each import comes to so holds of all imports of files that are
closed.
-/

namespace AsmIndex

namespace Plan

/-- The problem of an import that is found nowhere. -/
def missingImport (plan : Plan) (r : Reference) : Diagnostic :=
  ⟨r.line, r.column, plan.severity, .unresolvedImport,
    "cannot find imported file '" ++ r.raw ++ "'"⟩

end Plan

namespace Reference

/-- The problem of an import of a file that cannot be had. -/
def unreadable (r : Reference) (e : FileError) : Diagnostic :=
  ⟨r.line, r.column, .error, .readFailure,
    "cannot read '" ++ (r.resolved.getD ⟨""⟩).text ++ "': " ++ e.message⟩

end Reference

namespace Walk

/-- What comes of the import `r` that the innermost open file `f` is at: the import as it was
found, and a problem or none. -/
inductive Concludes (plan : Plan) (view : FileView) (w : Walk) (f : Frame) (r : Reference) :
    Reference → Option Diagnostic → Prop
  | missing (stage : w.stage = .probe f r []) :
      Concludes plan view w f r r (some (plan.missingImport r))
  | meet {path rest} (stage : w.stage = .probe f r (path :: rest))
      (found : view.isFile path = true)
      (old : w.once.contains path = true ∨ w.index.contains path r.active = true) :
      Concludes plan view w f r (w.redirected (r.resolveTo path) path) none
  | back {failure stack} (stage : w.stage = .leave failure) (inner : w.stack = (f, r) :: stack) :
      Concludes plan view w f r (w.redirected r (r.resolved.getD ⟨""⟩))
        (failure.map r.unreadable)

/-- The import that a file looks for is not resolved yet; those that lead to the files further in
are resolved and not redirected. -/
structure Aims (w : Walk) : Prop where
  probe : ∀ {f r cs}, w.stage = .probe f r cs → r.unresolved = r
  stack : ∀ x ∈ w.stack, ∃ path, x.2 = x.2.unresolved.resolveTo path

theorem aims_start (entry : Path) (symbols : Symbols) : (start entry symbols).Aims where
  probe := by simp [start]
  stack := by simp [start]

section Aims

variable {plan : Plan} {view : FileView} {cancelled : Bool} {w w' : Walk}

theorem move_aims (h : Move plan view cancelled w w') (hw : w.Aims) : w'.Aims := by
  cases h with
  | look stage more =>
      refine ⟨?_, hw.stack⟩
      rintro _ _ _ ⟨⟩
      rfl
  | skip stage absent =>
      refine ⟨?_, hw.stack⟩
      rintro _ _ _ ⟨⟩
      exact hw.probe stage
  | @descend f r path rest stage =>
      refine ⟨by simp, ?_⟩
      intro x hx
      rcases List.mem_cons.1 hx with rfl | hx
      · exact ⟨path, by simp [hw.probe stage]⟩
      · exact hw.stack x hx
  | back stage inner =>
      refine ⟨by simp [leave, inner], ?_⟩
      intro x hx
      exact hw.stack x (by simp_all [leave])
  | rest _ => exact hw
  | _ => exact ⟨by simp [reuse, tokenize, register, missing], hw.stack⟩

/-- An import comes out unresolved, or resolved and, where the file is parsed once, redirected. -/
theorem Concludes.found {f : Frame} {r r' : Reference} {problem : Option Diagnostic}
    (h : Concludes plan view w f r r' problem) (hw : w.Aims) :
    r' = r.unresolved ∨ ∃ path, r' = w.redirected (r.unresolved.resolveTo path) path := by
  cases h with
  | missing stage => exact .inl (hw.probe stage).symm
  | meet stage _ _ => exact .inr ⟨_, by rw [hw.probe stage]⟩
  | back stage inner =>
      obtain ⟨path, hpath⟩ := hw.stack (f, r) (by simp [inner])
      have hresolved : r.resolved = some path := congrArg Reference.resolved hpath
      exact .inr ⟨path, by rw [← hpath, hresolved, Option.getD_some]⟩

end Aims

/-- The imports that were followed have a property, together with the problems met, and so have all
imports of files that are closed. -/
structure Settles (P : Walk → Path → List Reference → List Diagnostic → Prop) (w : Walk) :
    Prop where
  followed : ∀ x ∈ w.opened, P w x.1.path x.1.followed x.1.problems
  closed : ∀ p s v, w.index.get? p s = some v →
    w.IsOpen p s ∨ P w p v.references v.resolutionDiagnostics

/-- What a move has to keep of a property of imports, so that it holds of all that have been
followed. -/
structure Keeps (plan : Plan) (view : FileView)
    (P : Walk → Path → List Reference → List Diagnostic → Prop) (w w' : Walk) : Prop where
  congr : ∀ {p q rs ds}, q.components = p.components → P w' p rs ds → P w' q rs ds
  nil : ∀ p, P w' p [] []
  mono : ∀ {p rs ds}, P w p rs ds → P w' p rs ds
  add : ∀ {f r r' problem}, Concludes plan view w f r r' problem →
    P w f.path f.followed f.problems →
    P w' f.path (f.followed ++ [r']) (f.problems ++ problem.toList)
  same : ∀ {f}, w.stage = .follow f →
    Variant.sameReferences f.followed f.variant.references = true →
    P w f.path f.followed f.problems → P w' f.path f.variant.references f.problems

theorem settles_start {P : Walk → Path → List Reference → List Diagnostic → Prop}
    (entry : Path) (symbols : Symbols) : (start entry symbols).Settles P where
  followed := by simp [start, opened]
  closed := by
    intro p s v hv
    simp [start] at hv

section Settles

variable {plan : Plan} {view : FileView} {cancelled : Bool} {w w' : Walk}
  {P : Walk → Path → List Reference → List Diagnostic → Prop}

theorem move_followed (h : Move plan view cancelled w w') (hP : Keeps plan view P w w')
    (hw : w.Settles P) {x : Frame × List Reference} (hx : x ∈ w'.opened) :
    P w' x.1.path x.1.followed x.1.problems := by
  have houter : x ∈ w.stack.map (fun x => (x.1, [x.2])) →
      P w' x.1.path x.1.followed x.1.problems :=
    fun hx => hP.mono (hw.followed x (w.stack_sublist_opened.subset hx))
  cases h with
  | reuseLive | scanLive | reuseStored | scanStored =>
      rcases List.mem_cons.1 hx with rfl | hx
      · exact hP.nil _
      · exact houter hx
  | @look f r pending stage more =>
      rcases List.mem_cons.1 hx with rfl | hx
      · exact hP.mono (hw.followed (f, []) (by simp [opened_follow stage]))
      · exact houter hx
  | @skip f r _ _ stage | @descend f r _ _ stage =>
      rcases List.mem_cons.1 hx with rfl | hx
      · exact hP.mono (hw.followed (f, [r]) (by simp [opened_probe stage]))
      · exact houter hx
  | @missing f r stage =>
      rcases List.mem_cons.1 hx with rfl | hx
      · exact hP.add (.missing stage) (hw.followed (f, [r]) (by simp [opened_probe stage]))
      · exact houter hx
  | @meet f r path rest stage found old =>
      rcases List.mem_cons.1 hx with rfl | hx
      · exact hP.add (.meet stage found old) (hw.followed (f, [r]) (by simp [opened_probe stage]))
      · exact houter hx
  | @back failure f r stack stage inner =>
      have hf := hw.followed (f, [r]) (by simp [opened, stage, inner])
      have hadd := hP.add (.back stage inner) hf
      simp only [leave, inner] at hx hadd houter ⊢
      rcases List.mem_cons.1 hx with rfl | hx
      · exact hadd
      · exact houter (List.mem_cons_of_mem _ hx)
  | rest _ => exact hP.mono (hw.followed x hx)
  | _ => exact houter hx

theorem move_settles (h : Move plan view cancelled w w') (hcoherent : w.Coherent plan)
    (hP : Keeps plan view P w w') (hvalid : w'.stage ≠ .ended .cancelled) (hw : w.Settles P) :
    w'.Settles P where
  followed := fun _ hx => move_followed h hP hw hx
  closed := by
    intro p s v hv
    by_cases hopen : w'.IsOpen p s
    · exact .inl hopen
    · right
      rcases move_closed h hcoherent hvalid hv hopen with
        ⟨hold, hopen'⟩ | ⟨f, hpath, _, hcloses⟩
      · exact hP.mono ((hw.closed p s v hold).resolve_left hopen')
      · refine hP.congr hpath.symm ?_
        cases hcloses with
        | keep stage done same problems =>
            have hf := hw.followed (f, []) (by simp [opened_follow stage])
            rw [← problems]
            exact hP.same stage same hf
        | replace stage done changed =>
            exact hP.mono (hw.followed (f, []) (by simp [opened_follow stage]))

/-- When a walk is complete, its property holds of the imports of all files. -/
theorem Settles.complete (hw : w.Settles P) (hcoherent : w.Coherent plan)
    (hend : w.ending? = some .complete) {p : Path} {s : Symbols} {v : Variant}
    (hv : w.index.get? p s = some v) : P w p v.references v.resolutionDiagnostics :=
  (hw.closed p s v hv).resolve_left (hcoherent.not_isOpen hend p s)

end Settles

end Walk

end AsmIndex

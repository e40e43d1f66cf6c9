import AsmIndex.Proofs.Maps
import AsmIndex.Walk

/-!
The moves of a walk. Every step of a walk is one of the moves below, each with what has to hold
for it and the walk it leads to; what is preserved by each move is preserved by every run.
-/

namespace AsmIndex

namespace Variant

/-- The variant was made of the content and at the time of a live buffer. -/
def FromBuffer (v : Variant) (buffer : LiveBuffer) : Prop :=
  v.liveContent = some buffer.content ∧ v.modified = buffer.time

/-- The variant was made of a stored file that was changed at `time`. -/
def FromStored (v : Variant) (time : Nat) : Prop := v.liveContent = none ∧ v.modified = time

end Variant

namespace Walk

@[simp] theorem leave_index (w : Walk) (failure : Option FileError) :
    (w.leave failure).index = w.index := by
  unfold leave
  split
  · split <;> rfl
  · rfl

/-- What a step of a walk can do. -/
inductive Move (plan : Plan) (view : FileView) (cancelled : Bool) (w : Walk) : Walk → Prop
  /-- A cancelled walk gives up on coming to a file. -/
  | quitEnter {path symbols} (stage : w.stage = .enter path symbols) (quit : cancelled = true) :
      Move plan view cancelled w { w with stage := .ended .cancelled }
  /-- A cancelled walk gives up before an import. -/
  | quitFollow {frame} (stage : w.stage = .follow frame) (more : frame.pending ≠ [])
      (quit : cancelled = true) :
      Move plan view cancelled w { w with stage := .ended .cancelled }
  | known {path symbols} (stage : w.stage = .enter path symbols)
      (old : w.index.contains path symbols = true) :
      Move plan view cancelled w { w with stage := .leave none }
  | reuseLive {path symbols buffer v} (stage : w.stage = .enter path symbols)
      (new : w.index.contains path symbols = false) (live : plan.live.get? path = some buffer)
      (previous : plan.previous.get? path symbols = some v) (same : v.FromBuffer buffer) :
      Move plan view cancelled w (w.reuse path symbols v)
  | scanLive {path symbols buffer} (stage : w.stage = .enter path symbols)
      (new : w.index.contains path symbols = false) (live : plan.live.get? path = some buffer)
      (changed : ∀ v, plan.previous.get? path symbols = some v → ¬ v.FromBuffer buffer) :
      Move plan view cancelled w
        (w.tokenize plan path symbols buffer.content buffer.time (some buffer.content))
  | askTime {path symbols} (stage : w.stage = .enter path symbols)
      (new : w.index.contains path symbols = false) (stored : plan.live.get? path = none) :
      Move plan view cancelled w { w with stage := .stamp path symbols }
  | noTime {path symbols e} (stage : w.stage = .stamp path symbols)
      (answer : view.modified path = .error e) :
      Move plan view cancelled w { w with stage := .leave (some e) }
  | reuseStored {path symbols time v} (stage : w.stage = .stamp path symbols)
      (answer : view.modified path = .ok time)
      (previous : plan.previous.get? path symbols = some v) (same : v.FromStored time) :
      Move plan view cancelled w (w.reuse path symbols v)
  | askText {path symbols time} (stage : w.stage = .stamp path symbols)
      (answer : view.modified path = .ok time)
      (changed : ∀ v, plan.previous.get? path symbols = some v → ¬ v.FromStored time) :
      Move plan view cancelled w { w with stage := .read path symbols time }
  | noText {path symbols time e} (stage : w.stage = .read path symbols time)
      (answer : view.read path = .error e) :
      Move plan view cancelled w { w with stage := .leave (some e) }
  | scanStored {path symbols time text} (stage : w.stage = .read path symbols time)
      (answer : view.read path = .ok text) :
      Move plan view cancelled w (w.tokenize plan path symbols text time none)
  | look {frame r pending} (stage : w.stage = .follow frame)
      (more : frame.pending = r :: pending) :
      Move plan view cancelled w
        { w with
          stage := .probe { frame with pending } r.unresolved
            (r.unresolved.candidates frame.path.directory plan.libraries) }
  | skip {frame r path rest} (stage : w.stage = .probe frame r (path :: rest))
      (absent : view.isFile path = false) :
      Move plan view cancelled w { w with stage := .probe frame r rest }
  | missing {frame r} (stage : w.stage = .probe frame r []) :
      Move plan view cancelled w (w.missing plan frame r)
  | meet {frame r path rest} (stage : w.stage = .probe frame r (path :: rest))
      (found : view.isFile path = true)
      (old : w.once.contains path = true ∨ w.index.contains path r.active = true) :
      Move plan view cancelled w
        { w with stage := .follow (frame.add (w.redirected (r.resolveTo path) path) none) }
  | descend {frame r path rest} (stage : w.stage = .probe frame r (path :: rest))
      (found : view.isFile path = true) (many : w.once.contains path = false)
      (new : w.index.contains path r.active = false) :
      Move plan view cancelled w
        { w with stack := (frame, r.resolveTo path) :: w.stack, stage := .enter path r.active }
  | keep {frame} (stage : w.stage = .follow frame) (done : frame.pending = [])
      (same : Variant.sameReferences frame.followed frame.variant.references = true)
      (problems : frame.problems = frame.variant.resolutionDiagnostics) :
      Move plan view cancelled w { w with stage := .leave none }
  | replace {frame} (stage : w.stage = .follow frame) (done : frame.pending = [])
      (changed : ¬ (Variant.sameReferences frame.followed frame.variant.references = true ∧
        frame.problems = frame.variant.resolutionDiagnostics)) :
      Move plan view cancelled w
        { w with
          index := w.index.insert frame.path frame.symbols
            (frame.variant.withReferences ⟨plan.pass, w.made⟩ frame.followed frame.problems)
          made := w.made + 1
          stage := .leave none }
  | back {failure frame r stack} (stage : w.stage = .leave failure)
      (inner : w.stack = (frame, r) :: stack) : Move plan view cancelled w (w.leave failure)
  | finish (stage : w.stage = .leave none) (outer : w.stack = []) :
      Move plan view cancelled w { w with stage := .ended .complete }
  | fail {e} (stage : w.stage = .leave (some e)) (outer : w.stack = []) :
      Move plan view cancelled w { w with stage := .ended (.unreadable e) }
  | rest {ending} (stage : w.stage = .ended ending) : Move plan view cancelled w w

section Moves

variable {plan : Plan} {view : FileView} {cancelled : Bool} {w w' : Walk}

theorem enter_move {path : Path} {symbols : Symbols} (stage : w.stage = .enter path symbols) :
    Move plan view cancelled w (w.enter plan path symbols) := by
  unfold enter
  split
  · rename_i old
    exact .known stage old
  · rename_i new
    replace new : w.index.contains path symbols = false := by simpa using new
    split
    · rename_i buffer live
      unfold enterLive
      split
      · rename_i v previous
        split
        · rename_i same
          refine .reuseLive stage new live previous ?_
          simpa [Variant.FromBuffer] using same
        · rename_i changed
          refine .scanLive stage new live ?_
          intro v' hv'
          cases previous.symm.trans hv'
          simpa [Variant.FromBuffer] using changed
      · rename_i previous
        refine .scanLive stage new live ?_
        intro v' hv'
        cases previous.symm.trans hv'
    · rename_i stored
      exact .askTime stage new stored

theorem stamp_move {path : Path} {symbols : Symbols} (stage : w.stage = .stamp path symbols) :
    Move plan view cancelled w (w.stamp plan path symbols (view.modified path)) := by
  unfold stamp
  split
  · rename_i e answer
    exact .noTime stage answer
  · rename_i time answer
    split
    · rename_i v previous
      split
      · rename_i same
        refine .reuseStored stage answer previous ?_
        simpa [Variant.FromStored] using same
      · rename_i changed
        refine .askText stage answer ?_
        intro v' hv'
        cases previous.symm.trans hv'
        simpa [Variant.FromStored] using changed
    · rename_i previous
      refine .askText stage answer ?_
      intro v' hv'
      cases previous.symm.trans hv'

theorem finish_move {frame : Frame} (stage : w.stage = .follow frame) (done : frame.pending = []) :
    Move plan view cancelled w (w.finish plan frame) := by
  unfold finish
  dsimp only
  split
  · rename_i same
    simp only [Bool.and_eq_true, beq_iff_eq] at same
    exact .keep stage done same.1 same.2
  · rename_i changed
    exact .replace stage done (by simpa using changed)

theorem arrive_move {frame : Frame} {r : Reference} {path : Path} {rest : List Path}
    (stage : w.stage = .probe frame r (path :: rest)) (found : view.isFile path = true) :
    Move plan view cancelled w (w.arrive frame r path) := by
  unfold arrive
  dsimp only [Reference.resolveTo]
  split
  · rename_i old
    exact .meet stage found (by simpa using old)
  · rename_i new
    simp only [Bool.or_eq_true, not_or, Bool.not_eq_true] at new
    exact .descend stage found new.1 new.2

theorem leave_move {failure : Option FileError} (stage : w.stage = .leave failure) :
    Move plan view cancelled w (w.leave failure) := by
  cases hstack : w.stack with
  | nil =>
      cases failure with
      | none => simpa [leave, hstack] using Move.finish stage hstack
      | some e => simpa [leave, hstack] using Move.fail stage hstack
  | cons top stack => exact .back stage hstack

theorem step_move (plan : Plan) (view : FileView) (cancelled : Bool) (w : Walk) :
    Move plan view cancelled w (w.step plan view cancelled) := by
  unfold step
  split
  · rename_i path symbols stage
    split
    · rename_i quit
      exact .quitEnter stage quit
    · exact enter_move stage
  · rename_i path symbols stage
    exact stamp_move stage
  · rename_i path symbols time stage
    unfold read
    split
    · rename_i e answer
      exact .noText stage answer
    · rename_i text answer
      exact .scanStored stage answer
  · rename_i frame stage
    split
    · rename_i done
      exact finish_move stage done
    · rename_i r pending more
      split
      · rename_i quit
        exact .quitFollow stage (by simp [more]) quit
      · exact .look stage more
  · rename_i frame r stage
    exact .missing stage
  · rename_i frame r path rest stage
    split
    · rename_i found
      exact arrive_move stage found
    · rename_i absent
      exact .skip stage (by simpa using absent)
  · rename_i failure stage
    exact leave_move stage
  · rename_i ending stage
    exact .rest stage

/-- A walk that nobody cancels has one move. -/
theorem Move.step_eq (h : Move plan view false w w') : w.step plan view false = w' := by
  cases h with
  | quitEnter _ quit => cases quit
  | quitFollow _ _ quit => cases quit
  | known stage old => simp [step, stage, enter, old]
  | reuseLive stage new live previous same =>
      simp [step, stage, enter, new, live, enterLive, previous, same.1, same.2]
  | @scanLive path symbols buffer stage new live changed =>
      simp only [step, stage, enter, new, live, enterLive, Bool.false_eq_true, if_false]
      split
      · rename_i v previous
        have hchanged := changed v previous
        rw [if_neg]
        simpa [Variant.FromBuffer] using hchanged
      · rfl
  | askTime stage new stored => simp [step, stage, enter, new, stored]
  | noTime stage answer => simp [step, stage, stamp, answer]
  | reuseStored stage answer previous same =>
      simp [step, stage, stamp, answer, previous, same.1, same.2]
  | askText stage answer changed =>
      simp only [step, stage, stamp, answer]
      split
      · rename_i v previous
        have hchanged := changed v previous
        rw [if_neg]
        simpa [Variant.FromStored] using hchanged
      · rfl
  | noText stage answer => simp [step, stage, read, answer]
  | scanStored stage answer => simp [step, stage, read, answer]
  | look stage more => simp [step, stage, more]
  | skip stage absent => simp [step, stage, absent]
  | missing stage => simp [step, stage]
  | @meet frame r path rest stage found old =>
      have hold : (w.once.contains path || w.index.contains path (r.resolveTo path).active) =
          true := by
        simpa [Reference.resolveTo] using old
      simp [step, stage, found, arrive, hold]
  | descend stage found many new =>
      simp [step, stage, found, arrive, Reference.resolveTo, many, new]
  | keep stage done same problems => simp [step, stage, done, Walk.finish, same, problems]
  | @replace frame stage done changed =>
      simp only [step, stage, done, Walk.finish]
      rw [if_neg]
      simpa using changed
  | back stage _ => simp [step, stage]
  | finish stage outer => simp [step, stage, leave, outer]
  | fail stage outer => simp [step, stage, leave, outer]
  | rest stage => simp [step, stage]

/-- A walk that nobody cancels does not give up. -/
theorem move_ending (h : Move plan view false w w') (hw : w.ending? ≠ some .cancelled) :
    w'.ending? ≠ some .cancelled := by
  cases h with
  | quitEnter _ quit => cases quit
  | quitFollow _ _ quit => cases quit
  | back stage inner => simp [leave, inner, ending?]
  | rest _ => exact hw
  | _ => simp [ending?, reuse, tokenize, register, missing]

theorem stage_of_ending {ending : Ending} (h : w.ending? = some ending) :
    w.stage = .ended ending := by
  unfold ending? at h
  split at h
  · rename_i stage
    cases h
    exact stage
  · cases h

/-- A walk that has ended stays as it is. -/
theorem move_ended {ending : Ending} (h : Move plan view cancelled w w')
    (hended : w.stage = .ended ending) : w' = w := by
  cases h <;> simp_all

/-- What cancelling does to a step: either nothing, or the walk gives up. -/
theorem step_eq_of_not_cancelled
    (h : (w.step plan view cancelled).stage ≠ .ended .cancelled) :
    w.step plan view cancelled = w.step plan view false := by
  cases cancelled with
  | false => rfl
  | true =>
      unfold step at h ⊢
      split at h
      · exact absurd rfl h
      · rfl
      · rfl
      · split at h
        · rfl
        · exact absurd rfl h
      · rfl
      · rfl
      · rfl
      · rfl

theorem run_of_going (going : w.ending? = none) (n : Nat) :
    w.run plan view (n + 1) = (w.step plan view false).run plan view n := by
  rw [run]
  split
  · rename_i stage
    simp [ending?, stage] at going
  · rfl

theorem run_of_ended {ending : Ending} (ended : w.ending? = some ending) (n : Nat) :
    w.run plan view n = w := by
  cases n with
  | zero => rfl
  | succ n => simp [run, stage_of_ending ended]

theorem run_add (w : Walk) (n k : Nat) :
    w.run plan view (n + k) = (w.run plan view n).run plan view k := by
  induction n generalizing w with
  | zero => simp [run]
  | succ n ih =>
      rw [Nat.succ_add]
      cases hending : w.ending? with
      | none => rw [run_of_going hending, run_of_going hending, ih]
      | some ending => rw [run_of_ended hending, run_of_ended hending, run_of_ended hending]

theorem run_succ (w : Walk) (n : Nat) :
    w.run plan view (n + 1) = (w.run plan view n).step plan view false := by
  rw [run_add]
  cases hending : (w.run plan view n).ending? with
  | none => rw [run_of_going hending, run]
  | some ending =>
      rw [run_of_ended hending, move_ended (step_move _ _ _ _) (stage_of_ending hending)]

/-- A walk comes to one end. -/
theorem run_eq_of_ended {n k : Nat} {e e' : Ending}
    (hn : (w.run plan view n).ending? = some e) (hk : (w.run plan view k).ending? = some e') :
    w.run plan view n = w.run plan view k := by
  rw [← run_of_ended hn k, ← run_add, Nat.add_comm, run_add, run_of_ended hk]

/-- The walks that steps lead to while the files stay as `view` shows them. -/
inductive Leads (plan : Plan) (view : FileView) (w : Walk) : Walk → Prop
  | refl : Leads plan view w w
  | step {a : Walk} (h : Leads plan view w a) (cancelled : Bool) :
      Leads plan view w (a.step plan view cancelled)

/-- A walk that has not given up is a run of steps that nobody cancelled. -/
theorem Leads.eq_run (h : Leads plan view w w') (hend : w'.stage ≠ .ended .cancelled) :
    ∃ n, w' = w.run plan view n := by
  induction h with
  | refl => exact ⟨0, rfl⟩
  | @step w₁ h cancelled ih =>
      have hbefore : w₁.stage ≠ .ended .cancelled := by
        intro hended
        rw [move_ended (step_move _ _ _ _) hended] at hend
        exact hend hended
      obtain ⟨n, rfl⟩ := ih hbefore
      exact ⟨n + 1, by rw [run_succ, step_eq_of_not_cancelled hend]⟩

/-- The walks that steps lead to while the files may change between any two of them. -/
inductive Proceeds (plan : Plan) (w : Walk) : Walk → Prop
  | refl : Proceeds plan w w
  | step {a : Walk} (h : Proceeds plan w a) (view : FileView) (cancelled : Bool) :
      Proceeds plan w (a.step plan view cancelled)

/-- What the moves of a walk keep true, whatever happens to the files. -/
theorem Proceeds.preserves {P : Walk → Prop}
    (hmove : ∀ {view cancelled} {a b : Walk}, Move plan view cancelled a b → P a → P b)
    (h : Proceeds plan w w') (hw : P w) : P w' := by
  induction h with
  | refl => exact hw
  | step _ view cancelled ih => exact hmove (step_move _ _ _ _) ih

/-- What the moves of a walk keep true as long as it does not give up. -/
theorem Proceeds.preserves_valid {P : Walk → Prop}
    (hmove : ∀ {view cancelled} {a b : Walk}, Move plan view cancelled a b →
      b.stage ≠ .ended .cancelled → P a → P b)
    (h : Proceeds plan w w') (hvalid : w'.stage ≠ .ended .cancelled) (hw : P w) : P w' := by
  induction h with
  | refl => exact hw
  | @step a h view cancelled ih =>
      have hbefore : a.stage ≠ .ended .cancelled := by
        intro hended
        rw [move_ended (step_move _ _ _ _) hended] at hvalid
        exact hvalid hended
      exact hmove (step_move _ _ _ _) hvalid (ih hbefore)

/-- What the moves of a walk keep true when nobody cancels it. -/
theorem run_preserves {P : Walk → Prop}
    (hmove : ∀ {a b : Walk}, Move plan view false a b → P a → P b) (hw : P w) (n : Nat) :
    P (w.run plan view n) := by
  induction n with
  | zero => exact hw
  | succ n ih =>
      rw [run_succ]
      exact hmove (step_move _ _ _ _) ih

theorem run_proceeds (plan : Plan) (view : FileView) (w : Walk) (n : Nat) :
    Proceeds plan w (w.run plan view n) := by
  induction n with
  | zero => exact .refl
  | succ n ih =>
      rw [run_succ]
      exact ih.step view false

/-- A walk that nobody cancels does not give up. -/
theorem run_valid (hw : w.ending? = none) (n : Nat) :
    (w.run plan view n).stage ≠ .ended .cancelled := by
  have hrun : (w.run plan view n).ending? ≠ some .cancelled :=
    run_preserves (P := fun w => w.ending? ≠ some .cancelled) move_ending (by simp [hw]) n
  intro hstage
  exact hrun (by simp [ending?, hstage])

end Moves

end Walk

end AsmIndex

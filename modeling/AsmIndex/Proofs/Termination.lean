import AsmIndex.Indexer.Settle
import AsmIndex.Proofs.ImportGraph
import AsmIndex.Proofs.SymbolSets
import Mathlib.Data.Set.Card
import Mathlib.Order.CompletePartialOrder

/-!
Every pass comes to an end. While no file changes, a walk comes only to files that exist, under
symbols that it starts with or that texts of the project define. These keys are finitely many;
each file that is registered uses up one of them, and between two registrations the imports that
are left and the way back to the entry file are used up.
-/

namespace AsmIndex

namespace Symbols

theorem finite_of_names {names : Set String} (h : names.Finite) :
    {s : Symbols | ∀ x ∈ s.names, x ∈ names}.Finite := by
  have hinjective : Function.Injective fun s : Symbols => {x | x ∈ s.names} := fun s t hst =>
    ext_names fun x => Set.ext_iff.1 hst x
  exact h.finite_subsets.preimage hinjective.injOn

end Symbols

theorem Memory.components_mem_of_isFile {m : Memory} {p : Path} (h : m.view.isFile p = true) :
    p.components ∈ m.files.keys.map Path.components := by
  obtain ⟨f, hf⟩ := Option.isSome_iff_exists.1 h
  obtain ⟨q, hq, hmem⟩ := OrderedMap.mem_entries_of_get? hf
  rw [Path.compare_eq_iff.1 hq]
  exact List.mem_map.2 ⟨q, List.mem_map.2 ⟨_, hmem, rfl⟩, rfl⟩

namespace Plan

/-- The names that can be defined during a walk that starts with `symbols`: these, and those of
`#define` lines of texts that the pass can load. -/
def names (plan : Plan) (m : Memory) (symbols : Symbols) : Set String :=
  {x | x ∈ symbols.names ∨ ∃ p s text, plan.Loads m.view p s ∧
    plan.text? m p = some text ∧
    x ∈ Source.defined text}

/-- The keys that a walk can come to, each path being given by its components: the entry file or a
file that exists, under names that can be defined. -/
def keys (plan : Plan) (m : Memory) (entry : Path) (symbols : Symbols) :
    Set (List Path.Component × Symbols) :=
  {k | (k.1 = entry.components ∨ ∃ p, m.view.isFile p = true ∧ p.components = k.1) ∧
    ∀ x ∈ k.2.names, x ∈ plan.names m symbols}

section Keys

variable {plan : Plan} {m : Memory} {entry : Path} {symbols : Symbols}

theorem mem_values_of_text? {p : Path} {text : String} (h : plan.text? m p = some text) :
    text ∈ plan.live.values.map LiveBuffer.content ++ m.files.values.map MemoryFile.content := by
  unfold text? at h
  split at h
  · rename_i buffer live
    cases h
    exact List.mem_append_left _ (List.mem_map.2 ⟨_, OrderedMap.mem_values_of_get? live, rfl⟩)
  · obtain ⟨f, hf, rfl⟩ := Option.map_eq_some_iff.1 h
    exact List.mem_append_right _ (List.mem_map.2 ⟨_, OrderedMap.mem_values_of_get? hf, rfl⟩)

theorem finite_names : (plan.names m symbols).Finite := by
  refine (List.finite_toSet (symbols.names ++ (plan.live.values.map LiveBuffer.content ++
    m.files.values.map MemoryFile.content).flatMap Source.defined)).subset ?_
  rintro x (hx | ⟨p, s, text, _, htext, hx⟩)
  · exact List.mem_append_left _ hx
  · exact List.mem_append_right _ (List.mem_flatMap.2 ⟨text, mem_values_of_text? htext, hx⟩)

theorem finite_keys : (plan.keys m entry symbols).Finite := by
  have hpaths : {c | c = entry.components ∨
      ∃ p, m.view.isFile p = true ∧ p.components = c}.Finite := by
    refine (List.finite_toSet (entry.components :: m.files.keys.map Path.components)).subset ?_
    rintro c (rfl | ⟨p, hp, rfl⟩)
    · exact List.mem_cons_self
    · exact List.mem_cons_of_mem _ (Memory.components_mem_of_isFile hp)
  exact (hpaths.prod (Symbols.finite_of_names finite_names)).subset fun k hk => hk

/-- What a key that can be loaded imports is a key that a walk can come to. -/
theorem Imports.mem_keys {k k' : Path × Symbols} (h : plan.Imports m k k')
    (hloads : plan.Loads m.view k.1 k.2)
    (hk : (k.1.components, k.2) ∈ plan.keys m entry symbols) :
    (k'.1.components, k'.2) ∈ plan.keys m entry symbols := by
  obtain ⟨r, hr, hactive, q, htarget, hq⟩ := h
  refine ⟨.inr ⟨q, List.find?_some htarget, hq⟩, ?_⟩
  intro x hx
  unfold references at hr
  split at hr
  · rename_i text htext
    rw [← hactive] at hx
    rcases Source.mem_active_scan hr hx with hold | hdefined
    · exact hk.2 x hold
    · exact .inr ⟨k.1, k.2, text, hloads, htext, hdefined⟩
  · cases hr

end Keys

end Plan

namespace Walk

/-- Those of the keys that a walk has not registered, each path being given by its components. -/
def leftOf (keys : Set (List Path.Component × Symbols)) (w : Walk) :
    Set (List Path.Component × Symbols) :=
  {k ∈ keys | ∀ p : Path, p.components = k.1 → w.index.contains p k.2 = false}

/-- The keys that a walk can come to and has not registered. -/
def unregistered (plan : Plan) (m : Memory) (entry : Path) (symbols : Symbols) (w : Walk) :
    Set (List Path.Component × Symbols) :=
  w.leftOf (plan.keys m entry symbols)

section Progress

variable {plan : Plan} {view : FileView} {cancelled : Bool} {w w' : Walk}
  {keys : Set (List Path.Component × Symbols)}

theorem leftOf_subset (h : Move plan view cancelled w w') : w'.leftOf keys ⊆ w.leftOf keys := by
  rintro k ⟨hk, hnew⟩
  refine ⟨hk, fun p hp => ?_⟩
  by_contra hold
  have hregistered := move_contains h (by simpa using hold)
  rw [hnew p hp] at hregistered
  cases hregistered

/-- To register a key that was not in the index leaves fewer of them. -/
theorem leftOf_ssubset (h : Move plan view cancelled w w') (hw : w.Coherent plan)
    (hkeys : ∀ {p s}, w.ComesTo p s → (p.components, s) ∈ keys) {p : Path} {s : Symbols}
    (hnew : w.index.contains p s = false) (hp : w'.index.contains p s = true) :
    w'.leftOf keys ⊂ w.leftOf keys := by
  obtain ⟨q, hq, hcomes⟩ := comesTo_of_registers h hw hnew hp
  refine (Set.ssubset_iff_of_subset (leftOf_subset h)).2
    ⟨(p.components, s), ⟨hq ▸ hkeys hcomes, fun p' hp' => ?_⟩, ?_⟩
  · rw [Index.contains_congr hp']
    exact hnew
  · rintro ⟨_, hnone⟩
    rw [hnone p rfl] at hp
    cases hp

theorem length_candidates_le (r : Reference) (directory : Path) (libraries : List Path) :
    (r.candidates directory libraries).length ≤ libraries.length + 1 := by
  unfold Reference.candidates Path.candidates
  split
  · simp
  · split
    · refine Nat.le_trans ?_ (Nat.le_add_left 1 _)
      cases Path.normal? ⟨r.normalized⟩ <;> simp
    · exact (List.length_filterMap_le _ _).trans (by simp)

/-- What a step has used up or brought: it registers a key that was not in the index and puts the
imports of its variant before those that are left, or it takes one of these, or it comes closer to
the end. -/
inductive Progress (plan : Plan) (view : FileView) (w w' : Walk) : Prop
  | registers {p s v} (registers : Registers plan view w p s v)
      (new : w.index.contains p s = false) (now : w'.index.contains p s = true)
      (brings : w'.pending = v.references ++ w.pending) (near : w'.distance ≤ w.distance)
  | takes (fewer : w'.pending.length < w.pending.length)
      (near : w'.distance < w.distance + importCost plan)
  | nears (same : w'.pending.length = w.pending.length) (nearer : w'.distance < w.distance)

theorem move_progress (h : Move plan view cancelled w w') (hw : w.Coherent plan)
    (going : w.ending? = none) : Progress plan view w w' := by
  cases h with
  | reuseLive stage new live previous same =>
      exact .registers (.reuseLive stage live previous same) new (contains_register _ _ _ _)
        (by simp [pending, stage, reuse, register]) (by simp [distance, stage, reuse, register])
  | scanLive stage new live changed =>
      exact .registers (.scanLive stage live changed) new (contains_register _ _ _ _)
        (by simp [pending, stage, tokenize, register])
        (by simp [distance, stage, tokenize, register])
  | reuseStored stage answer previous same =>
      exact .registers (.reuseStored stage answer previous same) (hw.new (.inl stage))
        (contains_register _ _ _ _) (by simp [pending, stage, reuse, register])
        (by simp [distance, stage, reuse, register])
  | scanStored stage answer =>
      exact .registers (.scanStored stage answer) (hw.new (.inr ⟨_, stage⟩))
        (contains_register _ _ _ _) (by simp [pending, stage, tokenize, register])
        (by simp [distance, stage, tokenize, register])
  | @look frame r _ stage more =>
      have hcandidates := length_candidates_le r.unresolved frame.path.directory plan.libraries
      refine .takes (by simp [pending, stage, more]) ?_
      simp only [distance, stage, importCost]
      omega
  | quitFollow stage more =>
      have hsome := List.length_pos_of_ne_nil more
      exact .takes (by simpa [pending, stage] using hsome) (by simp [distance, stage, importCost])
  | missing stage | meet stage =>
      refine .nears (by simp [pending, stage, missing, Frame.add]) ?_
      simp only [distance, stage, missing, List.length_nil, List.length_cons]
      omega
  | keep stage done | replace stage done =>
      exact .nears (by simp [pending, stage, done]) (by simp [distance, stage])
  | back stage inner =>
      refine .nears (by simp [pending, stage, inner, leave, Frame.add]) ?_
      simp only [distance, stage, inner, leave, List.length_cons]
      omega
  | rest stage => simp [ending?, stage] at going
  | quitEnter stage | known stage | askTime stage | noTime stage | askText stage | noText stage
  | skip stage | descend stage | finish stage | fail stage =>
      refine .nears (by simp [pending, stage]) ?_
      simp only [distance, stage, List.length_cons]
      omega

end Progress

section Bounded

variable {plan : Plan} {m : Memory} {entry : Path} {symbols : Symbols} {cancelled : Bool}
  {w w' : Walk}

theorem mem_keys_entry : (entry.components, symbols) ∈ plan.keys m entry symbols :=
  ⟨.inl rfl, fun _ hx => .inl hx⟩

theorem Explores.mem_keys_of_chain (hw : Explores plan m entry symbols w) {k : Path × Symbols}
    (hchain : Relation.ReflTransGen (Via plan m w.index) (entry, symbols) k) :
    (k.1.components, k.2) ∈ plan.keys m entry symbols := by
  induction hchain with
  | refl => exact mem_keys_entry
  | tail _ hvia ih =>
      obtain ⟨hk, _, himports⟩ := hvia
      exact himports.mem_keys (hw.loads hk) ih

/-- A key that a walk comes to is one that it can come to. -/
theorem Explores.mem_keys (hw : Explores plan m entry symbols w) {p : Path} {s : Symbols}
    (h : w.ComesTo p s) : (p.components, s) ∈ plan.keys m entry symbols := by
  have hlinked : Linked plan m entry symbols p s w.stack := by
    have hplaced := hw.placed
    rcases h with stage | stage | ⟨t, stage⟩ <;> simpa only [Placed, stage] using hplaced
  rcases hw.imported hlinked with ⟨rfl, rfl⟩ | ⟨k, hk, himports⟩
  · exact mem_keys_entry
  · obtain ⟨q, hq, hchain⟩ := hw.covers.reached k.1 k.2 hk
    have hkey := hw.mem_keys_of_chain hchain
    simp only [hq] at hkey
    exact himports.mem_keys (hw.loads hk) hkey

theorem Explores.unregistered_ssubset (hw : Explores plan m entry symbols w)
    (h : Move plan m.view cancelled w w') {p : Path} {s : Symbols}
    (hnew : w.index.contains p s = false) (hp : w'.index.contains p s = true) :
    w'.unregistered plan m entry symbols ⊂ w.unregistered plan m entry symbols :=
  leftOf_ssubset h hw.coherent hw.mem_keys hnew hp

/-- A walk through the import graph that has not ended goes on from `w` to `w'`. -/
def Succeeds (plan : Plan) (m : Memory) (entry : Path) (symbols : Symbols) (w' w : Walk) : Prop :=
  Explores plan m entry symbols w ∧ w.ending? = none ∧
    ∃ cancelled, Move plan m.view cancelled w w'

/-- No walk goes on for ever. -/
theorem wellFounded_succeeds : WellFounded (Succeeds plan m entry symbols) := by
  let measure (w : Walk) : Nat × Nat × Nat :=
    ((w.unregistered plan m entry symbols).ncard, w.pending.length, w.distance)
  refine Subrelation.wf (r := InvImage _ measure) ?_ (InvImage.wf _ WellFoundedRelation.wf)
  rintro w' w ⟨hw, going, cancelled, hmove⟩
  have hfinite : (w.unregistered plan m entry symbols).Finite :=
    Plan.finite_keys.subset fun k hk => hk.1
  have hle : (w'.unregistered plan m entry symbols).ncard ≤
      (w.unregistered plan m entry symbols).ncard :=
    Set.ncard_le_ncard (leftOf_subset hmove) hfinite
  cases move_progress hmove hw.coherent going with
  | registers _ new now _ _ =>
      exact .left _ _ (Set.ncard_lt_ncard (hw.unregistered_ssubset hmove new now) hfinite)
  | takes fewer _ =>
      exact Prod.lex_iff.2 (hle.lt_or_eq.imp_right fun heq => ⟨heq, .left _ _ fewer⟩)
  | nears same nearer =>
      exact Prod.lex_iff.2 (hle.lt_or_eq.imp_right fun heq =>
        ⟨heq, Prod.lex_iff.2 (.inr ⟨same, nearer⟩)⟩)

/-- A walk that nobody cancels comes to an end. -/
theorem Explores.run_ends (hprevious : ∀ p s v, plan.previous.get? p s = some v → v.Fresh m p s)
    (hw : Explores plan m entry symbols w) :
    ∃ n ending, (w.run plan m.view n).ending? = some ending := by
  have hwf : WellFounded (Succeeds plan m entry symbols) := wellFounded_succeeds
  induction w using hwf.induction with
  | _ w ih =>
      cases hending : w.ending? with
      | some ending => exact ⟨0, ending, hending⟩
      | none =>
          have hmove := step_move plan m.view false w
          obtain ⟨n, ending, hn⟩ :=
            ih _ ⟨hw, hending, false, hmove⟩ (move_explores hprevious hmove hw)
          exact ⟨n + 1, ending, by rw [run_of_going hending]; exact hn⟩

end Bounded

end Walk

end AsmIndex

import AsmIndex.CommandLine.Disk
import AsmIndex.Proofs.Termination

/-!
Bounds on steps. Over files that do not change, a walk comes only to places where a file is, under
names that it knows or that a text defines, and each file that it registers brings no more imports
than a text has lines. So the number of steps after which a walk has ended can be told before it
starts, and a walk over a tree of files comes to its end.
-/

namespace AsmIndex

section Total

variable {α β : Type}

theorem apply_le_total {f : α → Nat} {l : List α} {a : α} (h : a ∈ l) :
    f a ≤ total f l := by
  induction l with
  | nil => cases h
  | cons b rest ih =>
      change f a ≤ f b + total f rest
      rcases List.mem_cons.1 h with rfl | hrest
      · exact Nat.le_add_right _ _
      · exact (ih hrest).trans (Nat.le_add_left _ _)

theorem length_flatMap_le_total {f : α → List β} {g : α → Nat}
    (h : ∀ a, (f a).length ≤ g a) (l : List α) : (l.flatMap f).length ≤ total g l := by
  induction l with
  | nil => exact Nat.le_refl _
  | cons a rest ih =>
      rw [List.flatMap_cons, List.length_append]
      exact Nat.add_le_add (h a) ih

end Total

/-- The names that are active at references. -/
def activeNames (references : List Reference) : List String :=
  references.flatMap fun r => r.active.names

theorem length_activeNames_le (references : List Reference) :
    (activeNames references).length ≤ weightOf references :=
  length_flatMap_le_total (fun r => Nat.le_succ r.active.size) references

theorem length_le_weightOf (references : List Reference) :
    references.length ≤ weightOf references := by
  have hle := length_flatMap_le_total (f := fun r : Reference => [r])
    (g := fun r => r.active.size + 1) (fun r => Nat.le_add_left 1 _) references
  simpa [weightOf] using hle

namespace Source

/-- A line makes at most one import. -/
theorem length_references_le (text : String) (s : Symbols) :
    (scan text s).findings.references.length ≤ lineCount text := by
  have hlines : ∀ (texts : List (List Char)) (s : State) (n : Nat),
      (s.lines n texts).2.references.length ≤ texts.length := by
    intro texts
    induction texts with
    | nil => exact fun _ _ => Nat.le_refl _
    | cons cs rest ih =>
        intro s n
        have hrest := ih (s.line n cs).1 (n + 1)
        have hone : (s.line n cs).2.references.length ≤ 1 := by
          rcases s.single_line n cs with hnone | ⟨column, raw, hone⟩
          · simp [hnone]
          · simp [hone]
        rw [State.lines_cons, List.length_append, List.length_cons]
        omega
  rw [references_scan]
  exact hlines _ _ _

/-- A line defines at most one name. -/
theorem length_defined_le (text : String) : (defined text).length ≤ lineCount text := by
  have hlines : ∀ (texts : List (List Char)) (inComment : Bool),
      (definitions inComment texts).length ≤ texts.length := by
    intro texts
    induction texts with
    | nil => exact fun _ => Nat.le_refl _
    | cons cs rest ih =>
        intro inComment
        have hrest := ih (mask inComment cs).2
        have hone : (definition? (mask inComment cs).1).toList.length ≤ 1 := by
          cases definition? (mask inComment cs).1 <;> simp
        rw [definitions, List.length_append, List.length_cons]
        omega
  exact hlines _ _

end Source

/-- Each path of `places`, given by its components, under each set of `names`. -/
def keysWithin (places : List (List Path.Component)) (names : List String) :
    Set (List Path.Component × Symbols) :=
  {k | k.1 ∈ places ∧ ∀ x ∈ k.2.names, x ∈ names}

theorem finite_keysWithin (places : List (List Path.Component)) (names : List String) :
    (keysWithin places names).Finite :=
  ((List.finite_toSet places).prod (Symbols.finite_of_names (List.finite_toSet names))).subset
    fun _ hk => hk

/-- There are no more sets of symbols than sets of names. -/
theorem ncard_keysWithin_le (places : List (List Path.Component)) (names : List String) :
    (keysWithin places names).ncard ≤ places.length * Nat.pow 2 names.length := by
  let f : List Path.Component × Symbols → List Path.Component × Set String :=
    fun k => (k.1, {x | x ∈ k.2.names})
  have hinjective : Function.Injective f := by
    rintro ⟨c, s⟩ ⟨c', s'⟩ heq
    obtain ⟨hplace, hnames⟩ := Prod.ext_iff.1 heq
    exact Prod.ext hplace (Symbols.ext_names fun x => Set.ext_iff.1 hnames x)
  have hmaps : Set.MapsTo f (keysWithin places names)
      ({c | c ∈ places} ×ˢ Set.powerset {x | x ∈ names}) := fun k hk => ⟨hk.1, hk.2⟩
  have hcard : ∀ {α : Type} (l : List α), {a | a ∈ l}.ncard ≤ l.length := by
    classical
    intro α l
    rw [← List.coe_toFinset, Set.ncard_coe_finset]
    exact l.toFinset_card_le
  calc (keysWithin places names).ncard
      ≤ ({c | c ∈ places} ×ˢ Set.powerset {x | x ∈ names}).ncard :=
        Set.ncard_le_ncard_of_injOn f hmaps hinjective.injOn
          ((List.finite_toSet places).prod (List.finite_toSet names).powerset)
    _ = {c | c ∈ places}.ncard * Nat.pow 2 {x | x ∈ names}.ncard := by
        rw [Set.ncard_prod, Set.ncard_powerset _ (List.finite_toSet names)]
        rfl
    _ ≤ places.length * Nat.pow 2 names.length :=
        Nat.mul_le_mul (hcard places) (Nat.pow_le_pow_right (by decide) (hcard names))

/-- There are at most `most` references, and at each of them only `names` are active. -/
structure Bounded (names : List String) (most : Nat) (references : List Reference) : Prop where
  few : references.length ≤ most
  known : ∀ r ∈ references, ∀ x ∈ r.active.names, x ∈ names

theorem bounded_of_length {names : List String} {most : Nat} {references : List Reference}
    (hfew : references.length ≤ most) (hknown : ∀ x ∈ activeNames references, x ∈ names) :
    Bounded names most references :=
  ⟨hfew, fun r hr x hx => hknown x (List.mem_flatMap.2 ⟨r, hr, hx⟩)⟩

theorem bounded_scan {names : List String} {most : Nat} {text : String} {s : Symbols}
    (hs : ∀ x ∈ s.names, x ∈ names) (hmost : lineCount text ≤ most)
    (hdefined : ∀ x ∈ Source.defined text, x ∈ names) :
    Bounded names most (Source.scan text s).findings.references where
  few := (Source.length_references_le text s).trans hmost
  known := fun _ hr x hx => (Source.mem_active_scan hr hx).elim (hs x) (hdefined x)

namespace Walk

/-- What a walk can meet: files are at `places` only, and a file that is registered under `names`
has at most `most` imports under `names`. -/
structure Scope (plan : Plan) (view : FileView) (places : List (List Path.Component))
    (names : List String) (most : Nat) : Prop where
  file : ∀ {p : Path}, p.IsNormal → view.isFile p = true → p.components ∈ places
  brings : ∀ {w p s v}, Registers plan view w p s v → (∀ x ∈ s.names, x ∈ names) →
    Bounded names most v.references

/-- A walk has come to places under names only, and only names are active at its imports. -/
structure Within (places : List (List Path.Component)) (names : List String) (w : Walk) : Prop where
  comes : ∀ {p s}, w.ComesTo p s → p.components ∈ places
  here : ∀ x ∈ w.symbolsHere.names, x ∈ names
  imports : ∀ r ∈ w.pending, ∀ x ∈ r.active.names, x ∈ names

section Within

variable {plan : Plan} {view : FileView} {cancelled : Bool} {w w' : Walk}
  {places : List (List Path.Component)} {names : List String} {most : Nat}

theorem symbolsHere_of_comesTo {p : Path} {s : Symbols} (h : w.ComesTo p s) :
    w.symbolsHere = s := by
  rcases h with stage | stage | ⟨t, stage⟩ <;> simp [symbolsHere, stage]

theorem Within.mem_keys (hw : w.Within places names) {p : Path} {s : Symbols}
    (h : w.ComesTo p s) : (p.components, s) ∈ keysWithin places names :=
  ⟨hw.comes h, symbolsHere_of_comesTo h ▸ hw.here⟩

/-- A walk that comes to no file and takes up no import stays where it was. -/
theorem Within.rest (hw : w.Within places names) (hcomes : ∀ {p s}, ¬ w'.ComesTo p s)
    (hhere : w'.symbolsHere = Symbols.empty) (hpending : ∀ r ∈ w'.pending, r ∈ w.pending) :
    w'.Within places names :=
  ⟨fun h => absurd h hcomes, by simp [hhere, Symbols.empty],
    fun r hr => hw.imports r (hpending r hr)⟩

theorem Registers.comesTo {p : Path} {s : Symbols} {v : Variant}
    (h : Registers plan view w p s v) : w.ComesTo p s := by
  cases h with
  | reuseLive stage | scanLive stage => exact .inl stage
  | reuseStored stage => exact .inr (.inl stage)
  | scanStored stage => exact .inr (.inr ⟨_, stage⟩)

theorem Within.register (hscope : Scope plan view places names most) (hw : w.Within places names)
    {p : Path} {s : Symbols} {v : Variant} (h : Registers plan view w p s v)
    (hcomes : ∀ {p s}, ¬ w'.ComesTo p s) (hhere : w'.symbolsHere = Symbols.empty)
    (hpending : w'.pending = v.references ++ w.pending) : w'.Within places names where
  comes := fun h => absurd h hcomes
  here := by simp [hhere, Symbols.empty]
  imports := by
    have hbounded := hscope.brings h (symbolsHere_of_comesTo h.comesTo ▸ hw.here)
    intro r hr
    rw [hpending] at hr
    exact (List.mem_append.1 hr).elim (hbounded.known r) (hw.imports r)

theorem move_within (hscope : Scope plan view places names most)
    (h : Move plan view cancelled w w') (hcoherent : w.Coherent plan)
    (hw : w.Within places names) : w'.Within places names := by
  cases h with
  | reuseLive stage _ live previous same =>
      exact hw.register hscope (.reuseLive stage live previous same)
        (by simp [ComesTo, AsksFor, reuse, Walk.register]) rfl
        (by simp [pending, stage, reuse, Walk.register])
  | scanLive stage _ live changed =>
      exact hw.register hscope (.scanLive stage live changed)
        (by simp [ComesTo, AsksFor, tokenize, Walk.register]) rfl
        (by simp [pending, stage, tokenize, Walk.register])
  | reuseStored stage answer previous same =>
      exact hw.register hscope (.reuseStored stage answer previous same)
        (by simp [ComesTo, AsksFor, reuse, Walk.register]) rfl
        (by simp [pending, stage, reuse, Walk.register])
  | scanStored stage answer =>
      exact hw.register hscope (.scanStored stage answer)
        (by simp [ComesTo, AsksFor, tokenize, Walk.register]) rfl
        (by simp [pending, stage, tokenize, Walk.register])
  | @askTime path symbols stage | @askText path symbols _ stage =>
      refine ⟨?_, by simpa [symbolsHere, stage] using hw.here,
        by simpa [pending, stage] using hw.imports⟩
      intro p s hcomes
      obtain ⟨rfl, rfl⟩ : path = p ∧ symbols = s := by simpa [ComesTo, AsksFor] using hcomes
      exact hw.comes (s := symbols) (by simp [ComesTo, AsksFor, stage])
  | @look frame r pending' stage more =>
      have himports := hw.imports
      simp only [pending, stage, more, List.cons_append, List.forall_mem_cons] at himports
      exact ⟨by simp [ComesTo, AsksFor], himports.1, himports.2⟩
  | skip stage =>
      exact ⟨by simp [ComesTo, AsksFor], by simpa [symbolsHere, stage] using hw.here,
        by simpa [pending, stage] using hw.imports⟩
  | @descend frame r path rest stage found =>
      refine ⟨?_, by simpa [symbolsHere, stage] using hw.here,
        by simpa [pending, stage] using hw.imports⟩
      intro p s hcomes
      obtain ⟨rfl, _⟩ : path = p ∧ r.active = s := by simpa [ComesTo, AsksFor] using hcomes
      exact hscope.file (hcoherent.normal stage path List.mem_cons_self) found
  | missing stage =>
      exact hw.rest (by simp [ComesTo, AsksFor, Walk.missing]) rfl
        (by simp [pending, stage, Walk.missing, Frame.add])
  | meet stage =>
      exact hw.rest (by simp [ComesTo, AsksFor]) rfl (by simp [pending, stage, Frame.add])
  | back stage inner =>
      exact hw.rest (by simp [ComesTo, AsksFor, leave, inner]) (by simp [symbolsHere, leave, inner])
        (by simp [pending, stage, leave, inner, Frame.add])
  | rest => exact hw
  | _ =>
      exact hw.rest (by simp [ComesTo, AsksFor]) rfl fun r hr => List.mem_append_right _ hr

end Within

/-- The steps that a walk has before it at most, where `keys` are those that it can come to and a
file brings at most `most` imports. -/
noncomputable def stepsLeft (plan : Plan) (keys : Set (List Path.Component × Symbols)) (most : Nat)
    (w : Walk) : Nat :=
  (w.leftOf keys).ncard * (most * importCost plan + 1) + w.pending.length * importCost plan
    + w.distance

section Steps

variable {plan : Plan} {view : FileView} {cancelled : Bool} {w w' : Walk}
  {places : List (List Path.Component)} {names : List String} {most : Nat}

/-- Each step leaves fewer steps. -/
theorem move_stepsLeft (hscope : Scope plan view places names most)
    (h : Move plan view cancelled w w') (hcoherent : w.Coherent plan)
    (hw : w.Within places names) (going : w.ending? = none) :
    w'.stepsLeft plan (keysWithin places names) most <
      w.stepsLeft plan (keysWithin places names) most := by
  have hfinite : (w.leftOf (keysWithin places names)).Finite :=
    (finite_keysWithin places names).subset fun _ hk => hk.1
  unfold stepsLeft
  cases move_progress h hcoherent going with
  | registers registers new now brings near =>
      have hfewer := Set.ncard_lt_ncard (leftOf_ssubset h hcoherent hw.mem_keys new now) hfinite
      have hkeys := Nat.mul_le_mul_right (most * importCost plan + 1) hfewer
      have hbounded :=
        hscope.brings registers (symbolsHere_of_comesTo registers.comesTo ▸ hw.here)
      have hfew := Nat.mul_le_mul_right (importCost plan) hbounded.few
      rw [Nat.succ_mul] at hkeys
      rw [brings, List.length_append, Nat.add_mul]
      omega
  | takes fewer near =>
      have hkeys := Nat.mul_le_mul_right (most * importCost plan + 1)
        (Set.ncard_le_ncard (leftOf_subset h) hfinite)
      have htaken := Nat.mul_le_mul_right (importCost plan) fewer
      rw [Nat.succ_mul] at htaken
      omega
  | nears same nearer =>
      have hkeys := Nat.mul_le_mul_right (most * importCost plan + 1)
        (Set.ncard_le_ncard (leftOf_subset h) hfinite)
      rw [same]
      omega

theorem run_ends_of_stepsLeft (hscope : Scope plan view places names most)
    (hcoherent : w.Coherent plan) (hw : w.Within places names) {n : Nat}
    (hn : w.stepsLeft plan (keysWithin places names) most ≤ n) :
    ∃ ending, (w.run plan view n).ending? = some ending := by
  induction n using Nat.strong_induction_on generalizing w with
  | _ n ih =>
      cases hending : w.ending? with
      | some ending => exact ⟨ending, by rw [run_of_ended hending, hending]⟩
      | none =>
          have hmove := step_move plan view false w
          have hless := move_stepsLeft hscope hmove hcoherent hw hending
          obtain ⟨k, rfl⟩ := Nat.exists_eq_succ_of_ne_zero (show n ≠ 0 by omega)
          rw [run_of_going hending]
          exact ih k (Nat.lt_succ_self k) (move_coherent hmove hcoherent)
            (move_within hscope hmove hcoherent hw) (Nat.le_of_lt_succ (hless.trans_le hn))

end Steps

/-- Where a walk comes to. -/
def placesHere (w : Walk) : List (List Path.Component) :=
  match w.stage with
  | .enter p _ => [p.components]
  | .stamp p _ => [p.components]
  | .read p _ _ => [p.components]
  | _ => []

/-- The names that a walk knows or can come to know, where `texts` are those of the stored files. -/
def namesAhead (plan : Plan) (texts : List String) (w : Walk) : List String :=
  (texts ++ plan.live.values.map LiveBuffer.content).flatMap Source.defined
    ++ plan.previous.variants.flatMap (fun v => activeNames v.references)
    ++ activeNames w.pending ++ w.symbolsHere.names

end Walk

/-- The files of a view are at `places`, and their texts are among `texts`. -/
structure FileView.Lists (view : FileView) (places : List (List Path.Component))
    (texts : List String) : Prop where
  file : ∀ {p : Path}, p.IsNormal → view.isFile p = true → p.components ∈ places
  text : ∀ {p text}, view.read p = .ok text → text ∈ texts

namespace Walk

section Budget

variable {plan : Plan} {view : FileView} {w : Walk} {places : List (List Path.Component)}
  {texts : List String}

theorem length_namesAhead_le (plan : Plan) (texts : List String) (w : Walk) :
    (w.namesAhead plan texts).length ≤ w.weight plan texts := by
  have htexts := length_flatMap_le_total Source.length_defined_le
    (texts ++ plan.live.values.map LiveBuffer.content)
  have hprevious := length_flatMap_le_total (fun v : Variant => length_activeNames_le v.references)
    plan.previous.variants
  have hpending := length_activeNames_le w.pending
  simp only [namesAhead, List.length_append, weight, Index.weight, Symbols.size]
  omega

theorem length_placesHere_le (w : Walk) : w.placesHere.length ≤ 1 := by
  unfold placesHere
  split <;> simp

theorem within_ahead (w : Walk) (places : List (List Path.Component)) :
    w.Within (w.placesHere ++ places) (w.namesAhead plan texts) where
  comes := by
    intro p s hcomes
    refine List.mem_append_left _ ?_
    rcases hcomes with stage | stage | ⟨t, stage⟩ <;> simp [placesHere, stage]
  here := fun x hx => List.mem_append_right _ hx
  imports := fun r hr x hx => List.mem_append_left _ (List.mem_append_right _
    (List.mem_flatMap.2 ⟨r, hr, hx⟩))

theorem bounded_of_mem_texts (plan : Plan) (w : Walk) {text : String} {s : Symbols}
    (htext : text ∈ texts ++ plan.live.values.map LiveBuffer.content)
    (hs : ∀ x ∈ s.names, x ∈ w.namesAhead plan texts) :
    Bounded (w.namesAhead plan texts) (w.weight plan texts)
      (Source.scan text s).findings.references := by
  refine bounded_scan hs ?_ ?_
  · have hle : lineCount text ≤ _ := apply_le_total htext
    unfold weight
    omega
  · intro x hx
    simp only [namesAhead, List.append_assoc]
    exact List.mem_append_left _ (List.mem_flatMap.2 ⟨text, htext, hx⟩)

theorem bounded_of_previous (texts : List String) (w : Walk) {p : Path} {s : Symbols} {v : Variant}
    (hv : plan.previous.get? p s = some v) :
    Bounded (w.namesAhead plan texts) (w.weight plan texts) v.references := by
  have hmem := Index.mem_variants_of_get? hv
  refine bounded_of_length ?_ ?_
  · have hlength := length_le_weightOf v.references
    have hle : weightOf v.references ≤ _ :=
      apply_le_total (f := fun v : Variant => weightOf v.references) hmem
    unfold weight Index.weight
    omega
  · intro x hx
    simp only [namesAhead, List.append_assoc]
    exact List.mem_append_right _ (List.mem_append_left _ (List.mem_flatMap.2 ⟨v, hmem, hx⟩))

theorem scope_ahead (hview : view.Lists places texts) (plan : Plan) (w : Walk) :
    Scope plan view (w.placesHere ++ places) (w.namesAhead plan texts)
      (w.weight plan texts) where
  file := fun hnormal hfile => List.mem_append_right _ (hview.file hnormal hfile)
  brings := by
    intro w₁ p s v h hs
    cases h with
    | reuseLive _ _ previous | reuseStored _ _ previous =>
        exact bounded_of_previous texts w previous
    | scanLive _ live =>
        refine bounded_of_mem_texts plan w (List.mem_append_right _ ?_) hs
        exact List.mem_map.2 ⟨_, OrderedMap.mem_values_of_get? live, rfl⟩
    | scanStored _ answer =>
        exact bounded_of_mem_texts plan w (List.mem_append_left _ (hview.text answer)) hs

/-- The budget covers all steps that a walk has before it. -/
theorem stepsLeft_le_budget (plan : Plan) (texts : List String) (w : Walk) {files : Nat}
    (hfiles : places.length ≤ files) :
    w.stepsLeft plan (keysWithin (w.placesHere ++ places) (w.namesAhead plan texts))
      (w.weight plan texts) ≤ w.budget plan files texts := by
  have hplaces : (w.placesHere ++ places).length ≤ files + 1 := by
    have hhere := length_placesHere_le w
    rw [List.length_append]
    omega
  have hkeys : (w.leftOf (keysWithin (w.placesHere ++ places) (w.namesAhead plan texts))).ncard ≤
      (files + 1) * Nat.pow 2 (w.weight plan texts) :=
    calc _ ≤ (keysWithin (w.placesHere ++ places) (w.namesAhead plan texts)).ncard :=
          Set.ncard_le_ncard (fun _ hk => hk.1) (finite_keysWithin _ _)
      _ ≤ (w.placesHere ++ places).length * Nat.pow 2 (w.namesAhead plan texts).length :=
          ncard_keysWithin_le _ _
      _ ≤ _ := Nat.mul_le_mul hplaces
          (Nat.pow_le_pow_right (by decide) (length_namesAhead_le plan texts w))
  unfold stepsLeft budget
  have hmul := Nat.mul_le_mul_right (w.weight plan texts * importCost plan + 1) hkeys
  omega

/-- Within its budget a walk comes to its end. -/
theorem Coherent.run_budget (hw : w.Coherent plan) (hview : view.Lists places texts) {files : Nat}
    (hfiles : places.length ≤ files) :
    ∃ ending, (w.run plan view (w.budget plan files texts)).ending? = some ending :=
  run_ends_of_stepsLeft (scope_ahead hview plan w) hw (within_ahead w places)
    (stepsLeft_le_budget plan texts w hfiles)

end Budget

end Walk

namespace Disk

variable {d : Disk} {p : Path}

/-- The components of the paths in normal form that can lead to what is in a tree: an absolute and a
relative one for each place. -/
def places (d : Disk) : List (List Path.Component) :=
  d.nodes.keys.flatMap fun names =>
    [.root :: names.map .name, (names.drop d.start.length).map .name]

theorem go_names {base place names : List String} {segs : List (List Char)}
    (h : d.go base segs = .ok place)
    (hnames : segs.filterMap Path.component? = names.map .name) : place = base ++ names := by
  induction segs generalizing base names with
  | nil =>
      cases h
      cases names <;> simp at hnames ⊢
  | cons s rest ih =>
      unfold go at h
      split at h
      · cases h
      · cases h
      · cases hs : Path.component? s with
        | none =>
            simp only [hs] at h
            exact ih h (by simpa [hs] using hnames)
        | some c =>
            obtain ⟨t, more, rfl, rfl, hmore⟩ : ∃ t more,
                names = t :: more ∧ c = .name t ∧
                  rest.filterMap Path.component? = more.map .name := by
              cases names <;> simp_all
            simp only [hs] at h
            split at h
            · cases h
            · split at h
              · rw [ih h hmore, ← Path.component?_eq_name hs, List.append_assoc]
                rfl
              · cases h

/-- A path in normal form that leads somewhere leads down the names that it is made of. -/
theorem locate_names {place : List String} (hnormal : p.IsNormal)
    (h : d.locate p = .ok place) :
    p.components = .root :: place.map .name ∨
      p.components = (place.drop d.start.length).map .name := by
  obtain ⟨names, hsegments, hcomponents⟩ := hnormal.names
  have hplace : place = (if p.isAbsolute then [] else d.start) ++ names := by
    unfold locate at h
    dsimp only at h
    split at h
    · cases h
    · split at h
      · cases h
      · split at h
        · cases h
        · exact go_names h hsegments
  rw [hcomponents, hplace]
  cases p.isAbsolute with
  | true => exact .inl (by simp)
  | false => exact .inr (by simp)

/-- A file that a path leads to is in the tree. -/
theorem exists_place_of_find {bytes : List UInt8} (h : d.find p = .ok (.file bytes)) :
    ∃ place, d.locate p = .ok place ∧ d.nodes.get? place = some (.file bytes) := by
  unfold find at h
  split at h
  · cases h
  · rename_i place hlocate
    refine ⟨place, hlocate, ?_⟩
    split at h
    · rename_i node hnode
      cases h
      unfold node? at hnode
      split at hnode
      · cases hnode
      · exact hnode
    · cases h

theorem lists_view (d : Disk) : d.view.Lists d.places d.texts where
  file := by
    intro p hnormal hfile
    simp only [view] at hfile
    split at hfile
    · rename_i bytes hfind
      obtain ⟨place, hlocate, hget⟩ := exists_place_of_find hfind
      have hkey : place ∈ d.nodes.keys :=
        OrderedMap.mem_keys_iff.2 (by simp [OrderedMap.contains, hget])
      refine List.mem_flatMap.2 ⟨place, hkey, ?_⟩
      simpa using locate_names hnormal hlocate
    · cases hfile
  text := by
    intro p text hread
    simp only [view, read] at hread
    split at hread
    · cases hread
    · cases hread
    · rename_i bytes hfind
      obtain ⟨place, _, hget⟩ := exists_place_of_find hfind
      split at hread
      · rename_i text' htext
        cases hread
        exact List.mem_filterMap.2 ⟨_, OrderedMap.mem_values_of_get? hget, htext⟩
      · cases hread

end Disk

namespace CommandLine

/-- The first walk over a project in a tree comes to its end. -/
theorem walkDisk_ends (d : Disk) (config : Config) (project : Project) (request : Request) :
    ∃ ending, (walkDisk d config project request).ending? = some ending := by
  refine (Walk.coherent_start _ _ _).run_budget d.lists_view ?_
  have hlength : ∀ l : List (List String), (l.flatMap fun names =>
      [Path.Component.root :: names.map .name, (names.drop d.start.length).map .name]).length =
        2 * l.length := by
    intro l
    induction l with
    | nil => rfl
    | cons names rest ih =>
        rw [List.flatMap_cons, List.length_append, ih, List.length_cons]
        simp only [List.length_cons, List.length_nil]
        omega
  rw [Disk.places, hlength, OrderedMap.keys, List.length_map]
  exact Nat.le_refl _

end CommandLine

end AsmIndex

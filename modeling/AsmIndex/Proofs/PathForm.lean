import AsmIndex.Path
import AsmIndex.Path.Relative

/-!
Spellings and components. A path made of the components of a normal form has those components
again, so a normal form is determined by its components. The part of a path below a directory has
the components that are left, whatever the spelling.
-/

namespace AsmIndex.Path

theorem segments_eq_splitOn (cs : List Char) : segments cs = cs.splitOn '/' := by
  induction cs with
  | nil => rfl
  | cons c rest ih =>
      rw [List.splitOn, List.splitOnP_cons_eq_if_modifyHead, ← List.splitOn, ← ih]
      by_cases hc : c = '/'
      · simp [segments, hc]
      · cases hrest : segments rest with
        | nil => simp [ih] at hrest
        | cons s more => simp [segments, hc, hrest]

theorem joinSegments_eq_intercalate (segs : List (List Char)) :
    joinSegments segs = ['/'].intercalate segs := by
  induction segs with
  | nil => rfl
  | cons s more ih =>
      cases more with
      | nil => simp [joinSegments]
      | cons s' more => simp [joinSegments, ih, List.intercalate_cons_cons]

theorem segments_joinSegments {segs : List (List Char)} (h : ∀ s ∈ segs, '/' ∉ s)
    (hne : segs ≠ []) : segments (joinSegments segs) = segs := by
  rw [segments_eq_splitOn, joinSegments_eq_intercalate]
  exact List.splitOn_intercalate '/' h hne

theorem segments_ne_nil (cs : List Char) : segments cs ≠ [] := by
  simp [segments_eq_splitOn]

theorem segments_cons {c : Char} (hc : c ≠ '/') (rest : List Char) :
    ∃ s more, segments rest = s :: more ∧ segments (c :: rest) = (c :: s) :: more := by
  cases hrest : segments rest with
  | nil => exact absurd hrest (segments_ne_nil rest)
  | cons s more => exact ⟨s, more, rfl, by simp [segments, hc, hrest]⟩

theorem slash_notMem_segments (cs : List Char) : ∀ s ∈ segments cs, '/' ∉ s := by
  induction cs with
  | nil => simp [segments]
  | cons c rest ih =>
      unfold segments
      split
      · simpa using ih
      · rename_i hc
        split
        · simpa using fun h => hc h.symm
        · rename_i s more hrest
          rw [hrest] at ih
          simp only [List.mem_cons, forall_eq_or_imp, not_or] at ih ⊢
          exact ⟨⟨fun h => hc h.symm, ih.1⟩, ih.2⟩

/-- A text that can stand as a name in a path. -/
def IsName (t : String) : Prop := '/' ∉ t.toList ∧ component? t.toList = some (.name t)

/-- The components of a normal form: an optional root, then names. -/
def IsPlain (cs : List Component) : Prop :=
  ∃ (root : List Component) (names : List String),
    cs = root ++ names.map Component.name ∧ (root = [] ∨ root = [.root]) ∧
    ∀ t ∈ names, IsName t

theorem filterMap_names {names : List String} (h : ∀ t ∈ names, IsName t) :
    (names.map String.toList).filterMap component? = names.map Component.name := by
  induction names with
  | nil => rfl
  | cons t rest ih =>
      have hname := (h t (by simp)).2
      simp only [List.map_cons, List.filterMap_cons, hname]
      rw [ih fun t ht => h t (by simp [ht])]

/-- A path whose first piece stands for a component starts neither at the root nor with a `.`. -/
theorem components_of_segments {p : Path} {s : List Char} {more : List (List Char)}
    (h : segments p.text.toList = s :: more) (hs : (component? s).isSome = true) :
    p.components = (s :: more).filterMap component? := by
  have habsolute : p.isAbsolute = false := by
    cases htext : p.text.toList with
    | nil => simp [isAbsolute, htext]
    | cons c rest =>
        have hc : c ≠ '/' := by
          rintro rfl
          rw [htext] at h
          simp only [segments, if_true, List.cons.injEq] at h
          simp [← h.1, component?] at hs
        simpa [isAbsolute, htext] using hc
  have hhere : p.startsHere = false := by
    have hne : s ≠ ['.'] := by
      rintro rfl
      simp [component?] at hs
    simpa [startsHere, h] using hne
  simp [components, habsolute, hhere, h]

theorem components_of_slash {p : Path} {rest : List Char} (h : p.text.toList = '/' :: rest) :
    p.components = .root :: (segments rest).filterMap component? := by
  have habsolute : p.isAbsolute = true := by simp [isAbsolute, h]
  simp [components, habsolute, h, segments, component?]

theorem components_ofComponents {cs : List Component} (h : IsPlain cs) (hne : cs ≠ []) :
    (ofComponents cs).components = cs := by
  obtain ⟨root, names, rfl, hroot, hnames⟩ := h
  have hslash : ∀ s ∈ names.map String.toList, '/' ∉ s := by
    intro s hs
    obtain ⟨t, ht, rfl⟩ := List.mem_map.1 hs
    exact (hnames t ht).1
  rcases hroot with rfl | rfl
  · cases names with
    | nil => simp at hne
    | cons t rest =>
        have htext : (ofComponents ([] ++ (t :: rest).map Component.name)).text.toList =
            joinSegments ((t :: rest).map String.toList) := by
          simp [ofComponents, joinSegments_eq_intercalate, String.toList_intercalate,
            Function.comp_def, Component.text]
        have hsegments := htext ▸ segments_joinSegments hslash (by simp)
        rw [components_of_segments hsegments (by simp [(hnames t (by simp)).2])]
        exact filterMap_names hnames
  · cases names with
    | nil => rfl
    | cons t rest =>
        have htext : (ofComponents ([.root] ++ (t :: rest).map Component.name)).text.toList =
            '/' :: joinSegments ((t :: rest).map String.toList) := by
          simp [ofComponents, joinSegments_eq_intercalate, String.toList_intercalate,
            Function.comp_def, Component.text]
        rw [components_of_slash htext, segments_joinSegments hslash (by simp),
          filterMap_names hnames]
        rfl

/-- What the inner pieces of a path stand for. -/
theorem mem_filterMap_segments {cs : List Char} {c : Component}
    (h : c ∈ (segments cs).filterMap component?) :
    c = .parent ∨ ∃ t, c = .name t ∧ IsName t := by
  obtain ⟨s, hs, hc⟩ := List.mem_filterMap.1 h
  have hslash := slash_notMem_segments cs s hs
  unfold component? at hc
  split at hc
  · cases hc
  · rename_i hidle
    split at hc
    · cases hc
      exact .inl rfl
    · rename_i hparent
      cases hc
      refine .inr ⟨_, rfl, by simpa using hslash, ?_⟩
      simp only [component?, String.toList_ofList, hidle, hparent, Bool.false_eq_true, if_false]

theorem foldl_absorb {inner : List Component}
    (h : ∀ c ∈ inner, c = .parent ∨ ∃ t, c = .name t ∧ IsName t) {root : List Component}
    (hroot : root = [] ∨ root = [.root]) (names : List String)
    (hnames : ∀ t ∈ names, IsName t) :
    ∃ names' : List String, (∀ t ∈ names', IsName t) ∧
      inner.foldl absorb (names.map Component.name ++ root) =
        names'.map Component.name ++ root := by
  induction inner generalizing names with
  | nil => exact ⟨names, hnames, rfl⟩
  | cons c rest ih =>
      have hrest : ∀ c ∈ rest, c = .parent ∨ ∃ t, c = .name t ∧ IsName t := fun c hc =>
        h c (by simp [hc])
      rcases h c (by simp) with rfl | ⟨t, rfl, ht⟩
      · cases names with
        | nil =>
            obtain ⟨names', hnames', heq⟩ := ih hrest [] (by simp)
            refine ⟨names', hnames', ?_⟩
            rw [← heq]
            rcases hroot with rfl | rfl <;> rfl
        | cons t names =>
            exact ih hrest names fun t ht => hnames t (by simp [ht])
      · exact ih hrest (t :: names) (by simpa using ⟨ht, hnames⟩)

theorem isPlain_normalComponents (p : Path) : IsPlain p.normalComponents := by
  have hinner : ∀ root, root = [] ∨ root = [Component.root] →
      IsPlain (((segments p.text.toList).filterMap component?).foldl absorb root).reverse := by
    intro root hroot
    obtain ⟨names, hnames, heq⟩ := foldl_absorb (fun c hc => mem_filterMap_segments hc) hroot []
      (by simp)
    rw [List.map_nil, List.nil_append] at heq
    rw [heq]
    refine ⟨root, names.reverse, ?_, hroot, by simpa using hnames⟩
    rcases hroot with rfl | rfl <;> simp
  unfold normalComponents components
  dsimp only
  split
  · exact hinner [.root] (.inr rfl)
  · split
    · exact hinner [] (.inl rfl)
    · exact hinner [] (.inl rfl)

/-- The path is the normal form of some path. -/
def IsNormal (q : Path) : Prop := ∃ p : Path, p.normal? = some q

theorem normal?_components {p q : Path} (h : p.normal? = some q) :
    q.components = p.normalComponents := by
  unfold normal? at h
  split at h
  · cases h
  · rename_i hne
    cases h
    exact components_ofComponents p.isPlain_normalComponents hne

/-- A normal form is determined by its components. -/
theorem IsNormal.eq_of_components {q q' : Path} (hq : q.IsNormal) (hq' : q'.IsNormal)
    (h : q.components = q'.components) : q = q' := by
  have hspelling : ∀ {p q : Path}, p.normal? = some q → q = ofComponents q.components := by
    intro p q hp
    rw [normal?_components hp]
    unfold normal? at hp
    split at hp
    · cases hp
    · exact (Option.some.inj hp).symm
  obtain ⟨p, hp⟩ := hq
  obtain ⟨p', hp'⟩ := hq'
  rw [hspelling hp, hspelling hp', h]

/-- The pieces of a normal form stand for names only. -/
theorem IsNormal.names {p : Path} (h : p.IsNormal) :
    ∃ names : List String, (segments p.text.toList).filterMap component? = names.map .name ∧
      p.components = if p.isAbsolute then .root :: names.map .name else names.map .name := by
  obtain ⟨q, hq⟩ := h
  obtain ⟨root, names, hplain, hroot, _⟩ := q.isPlain_normalComponents
  rw [← normal?_components hq] at hplain
  have hinner : .root ∉ (segments p.text.toList).filterMap component? := by
    intro hmem
    rcases mem_filterMap_segments hmem with heq | ⟨t, heq, _⟩ <;> cases heq
  refine ⟨names, ?_⟩
  cases habsolute : p.isAbsolute with
  | true =>
      have hcomponents : p.components = .root :: (segments p.text.toList).filterMap component? := by
        simp [components, habsolute]
      rw [hcomponents] at hplain ⊢
      rcases hroot with rfl | rfl
      · cases names <;> simp at hplain
      · simpa using hplain
  | false =>
      cases hhere : p.startsHere with
      | true =>
          have hcomponents : p.components =
              .current :: (segments p.text.toList).filterMap component? := by
            simp [components, habsolute, hhere]
          rw [hcomponents] at hplain
          rcases hroot with rfl | rfl
          · cases names <;> simp at hplain
          · simp at hplain
      | false =>
          have hcomponents : p.components = (segments p.text.toList).filterMap component? := by
            simp [components, habsolute, hhere]
          rw [hcomponents] at hplain ⊢
          rcases hroot with rfl | rfl
          · simpa using hplain
          · exact absurd (by simp [hplain]) hinner

theorem filterMap_dropIdle (segs : List (List Char)) :
    (dropIdle segs).filterMap component? = segs.filterMap component? := by
  induction segs with
  | nil => rfl
  | cons s more ih =>
      unfold dropIdle at ih ⊢
      cases hs : component? s with
      | none => simp [hs, ih]
      | some c => simp [hs]

theorem filterMap_dropIdleEnd (segs : List (List Char)) :
    (dropIdleEnd segs).filterMap component? = segs.filterMap component? := by
  rw [dropIdleEnd, List.filterMap_reverse, filterMap_dropIdle, List.filterMap_reverse,
    List.reverse_reverse]

theorem filterMap_dropComponents (n : Nat) (segs : List (List Char)) :
    (dropComponents n segs).filterMap component? = (segs.filterMap component?).drop n := by
  induction segs generalizing n with
  | nil => cases n <;> simp [dropComponents]
  | cons s more ih =>
      cases n with
      | zero => simp [dropComponents]
      | succ n => cases hs : component? s <;> simp [dropComponents, hs, ih]

theorem dropIdleEnd_begins (segs : List (List Char)) : dropIdleEnd segs <+: segs := by
  rw [← List.reverse_suffix, dropIdleEnd, List.reverse_reverse]
  exact List.dropWhile_suffix _

theorem dropIdle_head {s : List Char} {segs more : List (List Char)}
    (h : dropIdle segs = s :: more) : (component? s).isSome = true := by
  have hhead := List.head?_dropWhile_not (fun s => (component? s).isNone) segs
  unfold dropIdle at h
  simp only [h, List.head?_cons] at hhead
  simpa [Option.isSome_iff_ne_none] using hhead

/-- A path that is spelled by pieces of which the first stands for a component. -/
theorem components_join {segs : List (List Char)} (h : ∀ s ∈ segs, '/' ∉ s)
    (hhead : ∀ s more, segs = s :: more → (component? s).isSome = true) :
    components ⟨String.ofList (joinSegments segs)⟩ = segs.filterMap component? := by
  cases segs with
  | nil => rfl
  | cons s more =>
      refine components_of_segments ?_ (hhead s more rfl)
      rw [String.toList_ofList]
      exact segments_joinSegments h (by simp)

theorem filterMap_segments_join {segs : List (List Char)} (h : ∀ s ∈ segs, '/' ∉ s) :
    (segments (joinSegments segs)).filterMap component? = segs.filterMap component? := by
  cases segs with
  | nil => rfl
  | cons s more => rw [segments_joinSegments h (by simp)]

theorem component?_eq_none {s : List Char} (h : component? s = none) : s = [] ∨ s = ['.'] := by
  unfold component? at h
  split at h
  · rename_i hidle
    simpa using hidle
  · split at h <;> cases h

theorem component?_eq_name {s : List Char} {t : String}
    (h : component? s = some (.name t)) : t = String.ofList s := by
  unfold component? at h
  split at h
  · cases h
  · split at h
    · cases h
    · exact (Component.name.inj (Option.some.inj h)).symm

theorem text_of_startsHere {p : Path} (h : p.startsHere = true) :
    ∃ rest more, p.text.toList = '.' :: rest ∧ segments rest = [] :: more := by
  simp only [startsHere, beq_iff_eq] at h
  cases htext : p.text.toList with
  | nil => simp [htext, segments] at h
  | cons c rest =>
      by_cases hc : c = '/'
      · simp [htext, segments, hc] at h
      · obtain ⟨s, more, hrest, hsegments⟩ := segments_cons hc rest
        rw [htext, hsegments] at h
        obtain ⟨rfl, rfl⟩ : c = '.' ∧ s = [] := by simpa using h
        exact ⟨rest, more, rfl, hrest⟩

theorem components_of_dot {p : Path} {rest : List Char} {more : List (List Char)}
    (htext : p.text.toList = '.' :: rest) (hrest : segments rest = [] :: more) :
    p.components = .current :: more.filterMap component? := by
  have hsegments : segments p.text.toList = ['.'] :: more := by
    rw [htext]
    simp [segments, hrest]
  have habsolute : p.isAbsolute = false := by simp [isAbsolute, htext]
  have hhere : p.startsHere = true := by simp [startsHere, hsegments]
  simp [components, habsolute, hhere, hsegments, component?]

theorem components_withoutIdleEnd (p : Path) : p.withoutIdleEnd.components = p.components := by
  have hslash : ∀ cs : List Char, ∀ s ∈ dropIdleEnd (segments cs), '/' ∉ s := fun cs s hs =>
    slash_notMem_segments cs s ((dropIdleEnd_begins _).subset hs)
  by_cases habsolute : p.isAbsolute = true
  · obtain ⟨rest, hrest⟩ : ∃ rest, p.text.toList = '/' :: rest := by
      simpa [isAbsolute, List.head?_eq_some_iff] using habsolute
    have htext : p.withoutIdleEnd.text.toList =
        '/' :: joinSegments (dropIdleEnd (segments rest)) := by
      simp [withoutIdleEnd, habsolute, hrest]
    rw [components_of_slash htext, components_of_slash hrest,
      filterMap_segments_join (hslash rest), filterMap_dropIdleEnd]
  · by_cases hhere : p.startsHere = true
    · obtain ⟨rest, more, hrest, hmore⟩ := text_of_startsHere hhere
      have htext : p.withoutIdleEnd.text.toList =
          '.' :: joinSegments (dropIdleEnd (segments rest)) := by
        simp [withoutIdleEnd, hhere, hrest]
      have hfilter : (dropIdleEnd (segments rest)).filterMap component? =
          more.filterMap component? := by
        rw [filterMap_dropIdleEnd, hmore]
        rfl
      rw [components_of_dot hrest hmore, ← hfilter]
      -- What is left of the pieces after the `.` is nothing, or starts with the empty piece.
      cases hleft : dropIdleEnd (segments rest) with
      | nil =>
          rw [hleft] at htext
          exact components_of_dot htext rfl
      | cons s left =>
          have hbegins := dropIdleEnd_begins (segments rest)
          rw [hleft, hmore, List.cons_prefix_cons] at hbegins
          obtain ⟨rfl, _⟩ := hbegins
          have hsegments := segments_joinSegments (hslash rest) (by simp [hleft])
          rw [hleft] at hsegments htext
          exact (components_of_dot htext hsegments).trans rfl
    · have htext : p.withoutIdleEnd =
          ⟨String.ofList (joinSegments (dropIdleEnd (segments p.text.toList)))⟩ := by
        simp [withoutIdleEnd, habsolute, hhere]
      have hcomponents : p.components = (segments p.text.toList).filterMap component? := by
        simp [components, habsolute, hhere]
      rw [htext, hcomponents, ← filterMap_dropIdleEnd]
      refine components_join (hslash _) ?_
      intro s left hleft
      rw [Option.isSome_iff_ne_none]
      intro hidle
      have hbegins := dropIdleEnd_begins (segments p.text.toList)
      rw [hleft] at hbegins
      obtain ⟨more, hmore⟩ := hbegins
      rcases component?_eq_none hidle with rfl | rfl
      · cases hp : p.text.toList with
        | nil =>
            rw [hp] at hleft
            cases hleft
        | cons c rest =>
            have hc : c ≠ '/' := by
              rintro rfl
              exact habsolute (by simp [isAbsolute, hp])
            obtain ⟨s, more', _, hsegments⟩ := segments_cons hc rest
            rw [hp, hsegments] at hmore
            cases hmore
      · simp [startsHere, ← hmore] at hhere

theorem dropComponents_suffix (n : Nat) (segs : List (List Char)) :
    dropComponents n segs <:+ segs := by
  induction segs generalizing n with
  | nil => cases n <;> simp [dropComponents]
  | cons s more ih =>
      cases n with
      | zero => exact List.suffix_refl _
      | succ n =>
          unfold dropComponents
          split
          · exact (ih _).trans (List.suffix_cons _ _)
          · exact (ih _).trans (List.suffix_cons _ _)

/-- The path of pieces without those at its ends that stand for no component. -/
theorem components_inner {segs : List (List Char)} (h : ∀ s ∈ segs, '/' ∉ s) :
    components ⟨String.ofList (joinSegments (dropIdleEnd (dropIdle segs)))⟩ =
      segs.filterMap component? := by
  have hbegins := dropIdleEnd_begins (dropIdle segs)
  rw [components_join, filterMap_dropIdleEnd, filterMap_dropIdle]
  · intro s hs
    exact h s ((List.dropWhile_suffix _).subset (hbegins.subset hs))
  · intro s left hleft
    rw [hleft] at hbegins
    obtain ⟨more, hmore⟩ := hbegins
    exact dropIdle_head hmore.symm

theorem components_of_leading {p : Path} (h : (p.isAbsolute || p.startsHere) = true) :
    ∃ c, p.components = c :: ((segments p.text.toList).drop 1).filterMap component? := by
  by_cases habsolute : p.isAbsolute = true
  · obtain ⟨rest, hrest⟩ : ∃ rest, p.text.toList = '/' :: rest := by
      simpa [isAbsolute, List.head?_eq_some_iff] using habsolute
    exact ⟨.root, by simp [components_of_slash hrest, hrest, segments]⟩
  · obtain ⟨rest, more, hrest, hmore⟩ := text_of_startsHere (by simpa [habsolute] using h)
    exact ⟨.current, by simp [components_of_dot hrest hmore, hrest, segments, hmore]⟩

/-- What is left of a path below a directory is what is left of its components. -/
theorem components_relativeTo (p base : Path) :
    (p.relativeTo base).components =
      if base.components.isPrefixOf p.components then p.components.drop base.components.length
      else p.components := by
  unfold relativeTo
  cases base.components.isPrefixOf p.components with
  | false => simp
  | true =>
      simp only [Bool.not_true, Bool.false_eq_true, if_false, if_true]
      cases base.components.length with
      | zero => exact components_withoutIdleEnd p
      | succ n =>
          have hslash := slash_notMem_segments p.text.toList
          dsimp only
          split
          · rename_i hleading
            obtain ⟨c, hc⟩ := components_of_leading hleading
            rw [components_inner, filterMap_dropComponents, hc, List.drop_succ_cons]
            intro s hs
            exact hslash s (List.mem_of_mem_drop ((dropComponents_suffix _ _).subset hs))
          · rename_i hplain
            have hcomponents : p.components = (segments p.text.toList).filterMap component? := by
              rw [Bool.or_eq_true, not_or] at hplain
              simp [components, hplain.1, hplain.2]
            rw [components_inner, filterMap_dropComponents, hcomponents]
            intro s hs
            exact hslash s ((dropComponents_suffix _ _).subset hs)

end AsmIndex.Path

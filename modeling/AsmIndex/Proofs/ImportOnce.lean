import AsmIndex.Proofs.FollowedImports
import AsmIndex.Proofs.RunningWalk

/-!
Files that are parsed once. In one pass a path has at most one variant that asks for it; once it
is there, no further key of the path is come to, and imports of the path are redirected to that
variant alone. This holds whatever happens to the files in the meantime.
-/

namespace AsmIndex

namespace Index

/-- In an index, a path has at most one variant that is parsed once, and a redirected import
carries the symbols at the end of that variant of the path that it resolves to. To follow it leads
to that variant, in whatever order the variants of the path are looked through. -/
structure ParsedOnce (index : Index) : Prop where
  unique : ∀ p s t v u, index.get? p s = some v → index.get? p t = some u →
    v.importOnce = true → u.importOnce = true → s = t
  redirected : ∀ p s v, index.get? p s = some v → ∀ r ∈ v.references, ∀ o,
    r.override = some o →
    ∃ q t u, r.resolved = some q ∧ index.get? q t = some u ∧ u.importOnce = true ∧
      u.outSymbols = o ∧ index.follow r = some u ∧
      ∀ set, index.files.get? q = some set → ∀ l : List Variant, l.Perm set.values →
        l.find? (fun v => v.importOnce && v.outSymbols == o) = some u

theorem parsedOnce_empty : ParsedOnce {} where
  unique := by
    intro p s t v u hv
    simp at hv
  redirected := by
    intro p s v hv
    simp at hv

/-- Where a path has one variant that is parsed once, it is found in every order. -/
theorem find?_of_unique {index : Index} {p : Path} {t : Symbols} {u : Variant}
    (hu : index.get? p t = some u) (honce : u.importOnce = true)
    (hunique : ∀ s v, index.get? p s = some v → v.importOnce = true → s = t)
    {set : VariantSet} (hset : index.files.get? p = some set) {l : List Variant}
    (hl : l.Perm set.values) :
    l.find? (fun v => v.importOnce && v.outSymbols == u.outSymbols) = some u := by
  have hget : ∀ {s v}, set.get? s = some v → index.get? p s = some v := fun hv =>
    get?_eq_some.2 ⟨set, hset, hv⟩
  have hmem : u ∈ l := by
    obtain ⟨set', hset', hu'⟩ := get?_eq_some.1 hu
    cases hset.symm.trans hset'
    obtain ⟨t', _, hentry⟩ := OrderedMap.mem_entries_of_get? hu'
    exact hl.mem_iff.2 (List.mem_map.2 ⟨_, hentry, rfl⟩)
  cases hfind : l.find? (fun v => v.importOnce && v.outSymbols == u.outSymbols) with
  | none => simpa [honce] using List.find?_eq_none.1 hfind u hmem
  | some v =>
      -- What is found is parsed once, and so is under the same symbols.
      have hv := List.find?_some hfind
      simp only [Bool.and_eq_true] at hv
      obtain ⟨⟨s, _⟩, hentry, rfl⟩ :=
        List.mem_map.1 (hl.mem_iff.1 (List.mem_of_find?_eq_some hfind))
      have hfound := hget (OrderedMap.get?_of_mem_entries hentry)
      obtain rfl := hunique s _ hfound hv.1
      rw [← hfound, hu]

end Index

theorem Variant.exists_same {rs ss : List Reference} (h : sameReferences rs ss = true)
    {s : Reference} (hs : s ∈ ss) : ∃ r ∈ rs, r.same s = true := by
  induction rs generalizing ss with
  | nil => cases ss <;> simp_all [sameReferences]
  | cons r rs ih =>
      cases ss with
      | nil => cases hs
      | cons s' ss =>
          simp only [sameReferences, Bool.and_eq_true] at h
          rcases List.mem_cons.1 hs with rfl | hs
          · exact ⟨r, List.mem_cons_self, h.1⟩
          · obtain ⟨r', hr', hsame⟩ := ih h.2 hs
            exact ⟨r', List.mem_cons_of_mem _ hr', hsame⟩

/-- References that agree are redirected alike and lead to the same place. -/
theorem Reference.same_found {r s : Reference} (h : r.same s = true) :
    r.override = s.override ∧
      ∀ q, r.resolved = some q → ∃ q', s.resolved = some q' ∧
      q'.components = q.components := by
  simp only [same, Bool.and_eq_true, beq_iff_eq] at h
  refine ⟨h.1.2, fun q hq => ?_⟩
  have hresolved := h.2
  rw [hq] at hresolved
  cases hs : s.resolved with
  | none => simp [hs] at hresolved
  | some q' =>
      have hcomponents : q.components = q'.components := by simpa [hs, Path.same] using hresolved
      exact ⟨q', rfl, hcomponents.symm⟩

namespace Walk

/-- The table of files parsed once is right: it has the files with a variant that asks for it, of
which each has one, and the walk does not come to them. -/
structure OnceOnly (w : Walk) : Prop where
  awaits : ∀ {p s}, w.ComesTo p s → w.once.contains p = false
  entries : ∀ {p e}, w.once.get? p = some e → ∃ s v, w.index.get? p s = some v ∧
    v.importOnce = true ∧ v.outSymbols = e.symbols
  registered : ∀ {p s v}, w.index.get? p s = some v → v.importOnce = true →
    w.once.contains p = true
  unique : ∀ {p s t v u}, w.index.get? p s = some v → w.index.get? p t = some u →
    v.importOnce = true → u.importOnce = true → s = t

theorem onceOnly_start (entry : Path) (symbols : Symbols) : (start entry symbols).OnceOnly := by
  constructor <;> simp [start]

section OnceOnly

variable {plan : Plan} {view : FileView} {cancelled : Bool} {w w' : Walk}

theorem OnceOnly.of_eq (hw : w.OnceOnly) (hindex : w'.index = w.index) (honce : w'.once = w.once)
    (hawaits : ∀ {p s}, w'.ComesTo p s → w.once.contains p = false) : w'.OnceOnly where
  awaits := by
    rw [honce]
    exact hawaits
  entries := by
    rw [hindex, honce]
    exact hw.entries
  registered := by
    rw [hindex, honce]
    exact hw.registered
  unique := by
    rw [hindex]
    exact hw.unique

theorem register_once_get? {p : Path} {s : Symbols} {v : Variant}
    (hnew : w.once.contains p = false) (q : Path) :
    (w.register p s v).once.get? q =
      if v.importOnce = true ∧ q.components = p.components then some ⟨v.outSymbols, v⟩
      else w.once.get? q := by
  simp only [register, OnceTable.register, hnew]
  by_cases himport : v.importOnce = true
  · simp [himport, OrderedMap.get?_insert, Path.compare_eq_iff]
  · simp [himport]

/-- A file is registered that the walk has come to. -/
theorem OnceOnly.register (hw : w.OnceOnly) {p : Path} {s : Symbols} (v : Variant)
    (hcomes : w.ComesTo p s) : (w.register p s v).OnceOnly := by
  have hawaits := hw.awaits hcomes
  have honce := register_once_get? (s := s) (v := v) hawaits
  -- No variant of the path was parsed once so far.
  have hmany : ∀ {q t u}, q.components = p.components → w.index.get? q t = some u →
      u.importOnce = true → False := by
    intro q t u hq hu himport
    have hcontains := hw.registered hu himport
    rw [OrderedMap.contains_congr (Path.compare_eq_iff.2 hq), hawaits] at hcontains
    cases hcontains
  have hget : ∀ q t, (w.register p s v).index.get? q t =
      if q.components = p.components ∧ t = s then some v else w.index.get? q t := fun q t =>
    Index.get?_insert _ _ _ _ _ _
  refine ⟨by simp [ComesTo, AsksFor, Walk.register], ?_, ?_, ?_⟩
  · intro q e he
    rw [honce] at he
    split at he
    · rename_i hq
      cases he
      exact ⟨s, v, by rw [hget, if_pos ⟨hq.2, rfl⟩], hq.1, rfl⟩
    · obtain ⟨t, u, hu, himport, hout⟩ := hw.entries he
      have hother : ¬ (q.components = p.components ∧ t = s) := fun hkey =>
        hmany hkey.1 hu himport
      exact ⟨t, u, by rw [hget, if_neg hother, hu], himport, hout⟩
  · intro q t u hu himport
    rw [hget] at hu
    rw [OrderedMap.contains, honce]
    split at hu
    · rename_i hkey
      cases hu
      simp [himport, hkey.1]
    · by_cases hq : v.importOnce = true ∧ q.components = p.components
      · simp [hq]
      · rw [if_neg hq]
        exact hw.registered hu himport
  · intro q t t' u u' hu hu' himport himport'
    rw [hget] at hu hu'
    split at hu
    · rename_i hkey
      split at hu'
      · rename_i hkey'
        rw [hkey.2, hkey'.2]
      · exact (hmany hkey.1 hu' himport').elim
    · split at hu'
      · rename_i hkey'
        exact (hmany hkey'.1 hu himport).elim
      · exact hw.unique hu hu' himport himport'

/-- The variant of an open file is replaced by one that is parsed once where it is, and ends with
the same symbols. -/
theorem OnceOnly.replace (hw : w.OnceOnly) {p : Path} {s : Symbols} {v v' : Variant}
    (hindex : w'.index = w.index.insert p s v') (hheld : w.index.get? p s = some v)
    (himport : v'.importOnce = v.importOnce) (hout : v'.outSymbols = v.outSymbols)
    (honce : w'.once = w.once) (hawaits : ∀ {p s}, ¬ w'.ComesTo p s) : w'.OnceOnly := by
  -- Each variant stands where one was before that agrees with it here.
  have hbefore : ∀ {q t u}, w'.index.get? q t = some u → ∃ u', w.index.get? q t = some u' ∧
      u.importOnce = u'.importOnce ∧ u.outSymbols = u'.outSymbols := by
    intro q t u hu
    rw [hindex, Index.get?_insert] at hu
    split at hu
    · rename_i hkey
      cases hu
      exact ⟨v, by rw [Index.get?_congr hkey.1, hkey.2, hheld], himport, hout⟩
    · exact ⟨u, hu, rfl, rfl⟩
  refine ⟨fun hcomes => absurd hcomes hawaits, ?_, ?_, ?_⟩
  · intro q e he
    rw [honce] at he
    obtain ⟨t, u, hu, himport', hout'⟩ := hw.entries he
    obtain ⟨u', hu'⟩ := Index.contains_iff.1 (show w'.index.contains q t = true by
      rw [hindex, Index.contains_insert]
      exact .inr (Index.contains_iff.2 ⟨u, hu⟩))
    obtain ⟨u₀, hu₀, hsame, hend⟩ := hbefore hu'
    cases hu.symm.trans hu₀
    exact ⟨t, u', hu', hsame.trans himport', hend.trans hout'⟩
  · intro q t u hu himport'
    obtain ⟨u₀, hu₀, hsame, _⟩ := hbefore hu
    rw [honce]
    exact hw.registered hu₀ (hsame.symm.trans himport')
  · intro q t t' u u' hu hu' himport₁ himport₂
    obtain ⟨u₀, hu₀, hsame, _⟩ := hbefore hu
    obtain ⟨u₁, hu₁, hsame', _⟩ := hbefore hu'
    exact hw.unique hu₀ hu₁ (hsame.symm.trans himport₁) (hsame'.symm.trans himport₂)

theorem move_onceOnly (h : Move plan view cancelled w w') (hcoherent : w.Coherent plan)
    (hw : w.OnceOnly) : w'.OnceOnly := by
  cases h with
  | reuseLive stage | scanLive stage =>
      exact (hw.register _ (.inl stage)).of_eq rfl rfl (by simp [ComesTo, AsksFor, reuse, tokenize,
        Walk.register])
  | reuseStored stage =>
      exact (hw.register _ (.inr (.inl stage))).of_eq rfl rfl (by simp [ComesTo, AsksFor, reuse,
        Walk.register])
  | scanStored stage =>
      exact (hw.register _ (.inr (.inr ⟨_, stage⟩))).of_eq rfl rfl (by simp [ComesTo, AsksFor,
        tokenize, Walk.register])
  | @askTime path symbols stage =>
      refine hw.of_eq rfl rfl ?_
      intro p s hcomes
      obtain ⟨rfl, rfl⟩ : path = p ∧ symbols = s := by simpa [ComesTo, AsksFor] using hcomes
      exact hw.awaits (.inl stage)
  | @askText path symbols time stage =>
      refine hw.of_eq rfl rfl ?_
      intro p s hcomes
      obtain ⟨rfl, rfl⟩ : path = p ∧ symbols = s := by simpa [ComesTo, AsksFor] using hcomes
      exact hw.awaits (.inr (.inl stage))
  | @descend f r path rest stage found many new =>
      refine hw.of_eq rfl rfl ?_
      intro p s hcomes
      obtain ⟨rfl, _⟩ : path = p ∧ r.active = s := by simpa [ComesTo, AsksFor] using hcomes
      exact many
  | @replace f stage =>
      have hheld := hcoherent.held (f, []) (by simp [opened_follow stage])
      exact hw.replace rfl hheld rfl rfl rfl (by simp [ComesTo, AsksFor])
  | back stage inner =>
      simp only [leave, inner]
      exact hw.of_eq rfl rfl (by simp [ComesTo, AsksFor])
  | rest _ => exact hw
  | _ => exact hw.of_eq rfl rfl (by simp [ComesTo, AsksFor, missing])

/-- What the table of files parsed once has, it keeps. -/
theorem move_once_get? (h : Move plan view cancelled w w') {p : Path} {e : OnceEntry}
    (he : w.once.get? p = some e) : w'.once.get? p = some e := by
  have hregister : ∀ (w : Walk) {q s v}, w.once.get? p = some e →
      (w.register q s v).once.get? p = some e := by
    intro w q s v he
    simp only [register, OnceTable.register]
    split
    · split
      · exact he
      · rename_i hnew
        rw [OrderedMap.get?_insert, if_neg, he]
        intro hq
        exact hnew (by simp [OrderedMap.contains, ← OrderedMap.get?_congr hq, he])
    · exact he
  cases h with
  | reuseLive | scanLive | reuseStored | scanStored => exact hregister _ he
  | back stage inner => simpa [leave, inner] using he
  | _ => exact he

/-- Once a path has a variant that is parsed once, the walk does not come to it any more, and its
keys stay the same. -/
theorem Proceeds.keys_of_once (h : Proceeds plan w w') (hcoherent : w.Coherent plan)
    (hw : w.OnceOnly) {p : Path} (honce : w.once.contains p = true) (t : Symbols) :
    ¬ w'.ComesTo p t ∧ w'.index.contains p t = w.index.contains p t := by
  have hrun := h.preserves (P := fun a => a.Coherent plan ∧ a.OnceOnly ∧
    a.once.contains p = true ∧ a.index.contains p t = w.index.contains p t) ?_
    ⟨hcoherent, hw, honce, rfl⟩
  · obtain ⟨_, hw', honce', hkeys⟩ := hrun
    refine ⟨fun hcomes => ?_, hkeys⟩
    rw [hw'.awaits hcomes] at honce'
    cases honce'
  · rintro view cancelled a b hmove ⟨ha, honly, hcontains, hkeys⟩
    obtain ⟨e, he⟩ := Option.isSome_iff_exists.1 hcontains
    refine ⟨move_coherent hmove ha, move_onceOnly hmove ha honly, ?_, ?_⟩
    · rw [OrderedMap.contains, move_once_get? hmove he]
      rfl
    · rw [← hkeys, Bool.eq_iff_iff]
      refine ⟨fun hb => ?_, move_contains hmove⟩
      by_contra hnew
      obtain ⟨q, hq, hcomes⟩ := comesTo_of_registers hmove ha (by simpa using hnew) hb
      rw [← OrderedMap.contains_congr (Path.compare_eq_iff.2 hq),
        honly.awaits hcomes] at hcontains
      cases hcontains

end OnceOnly

/-- The imports that are redirected carry the symbols that the table of files parsed once has for
the file that they resolve to. -/
def Redirects (w : Walk) (_ : Path) (rs : List Reference) (_ : List Diagnostic) : Prop :=
  ∀ r ∈ rs, ∀ o, r.override = some o →
    ∃ q e, r.resolved = some q ∧ w.once.get? q = some e ∧ e.symbols = o

section Redirects

variable {plan : Plan} {view : FileView} {cancelled : Bool} {w w' : Walk}

theorem Concludes.redirects {f : Frame} {r r' : Reference} {problem : Option Diagnostic}
    (h : Concludes plan view w f r r' problem) (hw : w.Aims) {o : Symbols}
    (ho : r'.override = some o) :
    ∃ q e, r'.resolved = some q ∧ w.once.get? q = some e ∧ e.symbols = o := by
  rcases h.found hw with rfl | ⟨path, rfl⟩
  · cases ho
  · unfold redirected at ho ⊢
    split at ho
    · rename_i e he
      exact ⟨path, e, rfl, he, by simpa [Reference.redirect] using ho⟩
    · cases ho

theorem Redirects.of_same {rs ss : List Reference} {p : Path} {ds : List Diagnostic}
    (h : Redirects w p rs ds) (hsame : Variant.sameReferences rs ss = true) :
    Redirects w p ss ds := by
  intro s hs o ho
  obtain ⟨r, hr, hrs⟩ := Variant.exists_same hsame hs
  obtain ⟨hoverride, hresolved⟩ := Reference.same_found hrs
  obtain ⟨q, e, hq, he, hsymbols⟩ := h r hr o (hoverride.trans ho)
  obtain ⟨q', hq', hcomponents⟩ := hresolved q hq
  refine ⟨q', e, hq', ?_, hsymbols⟩
  rw [OrderedMap.get?_congr (Path.compare_eq_iff.2 hcomponents), he]

theorem keeps_redirects (h : Move plan view cancelled w w') (hw : w.Aims) :
    Keeps plan view Redirects w w' := by
  have hmono : ∀ {p rs ds}, Redirects w p rs ds → Redirects w' p rs ds := by
    intro p rs ds hrs r hr o ho
    obtain ⟨q, e, hq, he, hsymbols⟩ := hrs r hr o ho
    exact ⟨q, e, hq, move_once_get? h he, hsymbols⟩
  refine ⟨fun _ hrs => hrs, by simp [Redirects], hmono, ?_, ?_⟩
  · intro f r r' problem hconcludes hf
    refine hmono fun x hx o ho => ?_
    rcases List.mem_append.1 hx with hx | hx
    · exact hf x hx o ho
    · obtain rfl := List.mem_singleton.1 hx
      exact hconcludes.redirects hw ho
  · intro f _ hsame hf
    exact hmono (hf.of_same hsame)

/-- A walk parses once what is to be parsed once. -/
structure ParsesOnce (plan : Plan) (w : Walk) : Prop where
  coherent : w.Coherent plan
  aims : w.Aims
  only : w.OnceOnly
  redirects : w.Settles Redirects

theorem parsesOnce_of_proceeds {entry : Path} {symbols : Symbols}
    (h : Proceeds plan (start entry symbols) w) (hvalid : w.stage ≠ .ended .cancelled) :
    w.ParsesOnce plan := by
  refine h.preserves_valid ?_ hvalid
    ⟨coherent_start _ _ _, aims_start _ _, onceOnly_start _ _, settles_start _ _⟩
  intro view cancelled a b hmove hb ha
  exact ⟨move_coherent hmove ha.coherent, move_aims hmove ha.aims,
    move_onceOnly hmove ha.coherent ha.only,
    move_settles hmove ha.coherent (keeps_redirects hmove ha.aims) hb ha.redirects⟩

/-- The index of a complete walk has each file that is parsed once so. -/
theorem ParsesOnce.index (hw : w.ParsesOnce plan) (hend : w.ending? = some .complete) :
    w.index.ParsedOnce where
  unique := fun p s t v u => hw.only.unique
  redirected := by
    intro p s v hv r hr o ho
    obtain ⟨q, e, hq, he, rfl⟩ := hw.redirects.complete hw.coherent hend hv r hr o ho
    obtain ⟨t, u, hu, honce, hout⟩ := hw.only.entries he
    have hfind : ∀ set, w.index.files.get? q = some set → ∀ l : List Variant,
      l.Perm set.values →
        l.find? (fun v => v.importOnce && v.outSymbols == e.symbols) = some u := by
      intro set hset l hl
      rw [← hout]
      exact Index.find?_of_unique hu honce (fun s v hv himport =>
        hw.only.unique hv hu himport honce)
        hset hl
    refine ⟨q, t, u, hq, hu, honce, hout, ?_, hfind⟩
    obtain ⟨set, hset, _⟩ := Index.get?_eq_some.1 hu
    simp only [Index.follow, hq, hset, ho]
    exact hfind set hset _ (.refl _)

end Redirects

end Walk

namespace Indexer

/-- Import once is really once. Whatever happens to an indexer and to its files, the index that a
pass computes and the published index have at most one variant of a path that is parsed once, and
redirected imports lead to that variant alone. As long as a pass walks, from the moment it has
such a variant of a path it neither comes to the path again nor registers another key of it. -/
theorem parsed_once_is_once (config : Config) (files : Memory) (before after : List Action) :
    let ix := (new config files).run before
    (∀ k index, (new config files).Computes before k index → index.ParsedOnce) ∧
      ix.snapshot.index.ParsedOnce ∧
      ∀ r w r' w', ix.running = some r → r.phase = .walking w →
        (ix.run after).running = some r' → r'.call = r.call → r'.phase = .walking w' →
        ∀ p s v, w.index.get? p s = some v → v.importOnce = true →
          ∀ t, ¬ w'.ComesTo p t ∧ w'.index.contains p t = w.index.contains p t := by
  intro ix
  have hwalk : ∀ plan entry symbols w, Walk.Proceeds plan (Walk.start entry symbols) w →
      w.ending? = some .complete → w.index.ParsedOnce := by
    intro plan entry symbols w hproceeds hend
    have hvalid : w.stage ≠ .ended .cancelled := by simp [Walk.stage_of_ending hend]
    exact (Walk.parsesOnce_of_proceeds hproceeds hvalid).index hend
  refine ⟨?_, snapshot_of_walks Index.parsedOnce_empty hwalk config files before, ?_⟩
  · rintro k index ⟨mid, rest, r, w, rfl, running, _, phase, ended, rfl⟩
    obtain ⟨symbols, hproceeds⟩ := walksFromEntry_run config files mid r w running phase
    exact hwalk _ _ _ _ hproceeds ended
  · intro r w r' w' running phase running' hcall phase' p s v hv honce t
    have hsound : ix.Sound := run_sound (sound_new config files) before
    obtain ⟨_, hproceeds⟩ := hsound.proceeds running phase after running' hcall phase'
    obtain ⟨symbols, hentry⟩ := walksFromEntry_run config files before r w running phase
    have hw : w.Coherent r.plan ∧ w.OnceOnly := hentry.preserves
      (P := fun w => w.Coherent r.plan ∧ w.OnceOnly)
      (fun hmove ha => ⟨Walk.move_coherent hmove ha.1, Walk.move_onceOnly hmove ha.1 ha.2⟩)
      ⟨Walk.coherent_start _ _ _, Walk.onceOnly_start _ _⟩
    exact hproceeds.keys_of_once hw.1 hw.2 (hw.2.registered hv honce) t

/-- A file that is parsed once where a name is defined, imported before that and twice after it. -/
theorem parsed_once_is_once_conditional :
    let actions : List Action :=
      [.write ⟨"/p/main.asm"⟩
        "#import \"a.asm\"\n#define A\n#import \"a.asm\"\n#import \"a.asm\"\n",
        .write ⟨"/p/a.asm"⟩ "#if A\n#importonce\n#endif\n#define B\n",
        .call (.initial ⟨"/p"⟩ {})] ++ List.replicate 30 .advance
    let index := ((new {} {}).run actions).snapshot.index
    ∃ v r o u, index.get? ⟨"/p/main.asm"⟩ Symbols.empty = some v ∧ r ∈ v.references ∧
      r.override = some o ∧ u.outSymbols = o ∧ index.follow r = some u := by
  intro actions index
  have hredirects : ((index.get? ⟨"/p/main.asm"⟩ Symbols.empty).any fun v =>
      v.references.any fun r => r.override.isSome) = true := by decide +kernel
  obtain ⟨v, hv, hsome⟩ := (Option.any_eq_true _ _).1 hredirects
  obtain ⟨r, hr, hoverride⟩ := List.any_eq_true.1 hsome
  obtain ⟨o, ho⟩ := Option.isSome_iff_exists.1 hoverride
  have hparsed : index.ParsedOnce := (parsed_once_is_once {} {} actions []).2.1
  obtain ⟨_, _, u, _, _, _, hout, hfollow, _⟩ := hparsed.redirected _ _ v hv r hr o ho
  exact ⟨v, r, o, u, hv, hr, ho, hout, hfollow⟩

end Indexer

end AsmIndex

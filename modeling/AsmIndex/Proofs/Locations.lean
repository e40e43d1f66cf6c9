import AsmIndex.Indexer
import AsmIndex.Proofs.PathForm

/-!
Locations: absolute paths in normal form. Every absolute path has a normal form, which is a
location; a location is its own normal form. What is taken from an absolute directory is absolute
again, and so is the directory of a location other than the root; so imports are looked for at
locations only, as long as the project and its files are at locations.
-/

namespace AsmIndex

namespace Path

/-- An absolute path in normal form. -/
def IsLocation (p : Path) : Prop := p.isAbsolute = true ∧ p.normal? = some p

/-- A location other than the root. -/
def IsInner (p : Path) : Prop := p.IsLocation ∧ p.components ≠ [.root]

theorem isAbsolute_iff {p : Path} : p.isAbsolute = true ↔ ∃ cs, p.components = .root :: cs := by
  constructor
  · intro h
    exact ⟨_, by simp only [components, h, if_true]; rfl⟩
  · rintro ⟨cs, hcs⟩
    cases habsolute : p.isAbsolute with
    | true => rfl
    | false =>
        -- The inner pieces of a path never stand for the root.
        have hmem : Component.root ∈ (segments p.text.toList).filterMap component? := by
          simp only [components, habsolute, Bool.false_eq_true, if_false] at hcs
          split at hcs
          · cases hcs
          · simp [hcs]
        rcases mem_filterMap_segments hmem with h | ⟨_, h, _⟩ <;> cases h

theorem isAbsolute_join {p : Path} (h : p.isAbsolute = true) (q : Path) :
    (p.join q).isAbsolute = true := by
  obtain ⟨rest, hrest⟩ : ∃ rest, p.text.toList = '/' :: rest := by
    simpa [isAbsolute, List.head?_eq_some_iff] using h
  unfold join
  split
  · assumption
  · split <;> simp [isAbsolute, hrest]

theorem foldl_absorb_names (names : List String) (held : List Component) :
    (names.map Component.name).foldl absorb held = (names.map Component.name).reverse ++ held := by
  induction names generalizing held with
  | nil => rfl
  | cons t rest ih =>
      rw [List.map_cons, List.foldl_cons, ih]
      simp [absorb]

/-- Plain components have nothing to absorb. -/
theorem foldl_absorb_plain {cs : List Component} (h : IsPlain cs) :
    (cs.foldl absorb []).reverse = cs := by
  obtain ⟨root, names, rfl, hroot, _⟩ := h
  rcases hroot with rfl | rfl
  · simp [foldl_absorb_names]
  · simp [absorb, foldl_absorb_names]

/-- A normal form is its own normal form. -/
theorem normal?_normal? {p q : Path} (h : p.normal? = some q) : q.normal? = some q := by
  have hcomponents := normal?_components h
  have hnormal : q.normalComponents = p.normalComponents := by
    rw [normalComponents, hcomponents]
    exact foldl_absorb_plain p.isPlain_normalComponents
  unfold normal? at h ⊢
  rw [hnormal]
  exact h

theorem IsNormal.of_location {p : Path} (h : p.IsLocation) : p.IsNormal := ⟨p, h.2⟩

theorem IsLocation.eq_of_components {p q : Path} (hp : p.IsLocation) (hq : q.IsLocation)
    (h : p.components = q.components) : p = q :=
  (IsNormal.of_location hp).eq_of_components (.of_location hq) h

/-- Paths that lead to one place are equal where they are locations. -/
theorem IsLocation.eq_of_normalComponents {p q : Path} (hp : p.IsLocation) (hq : q.IsLocation)
    (h : p.normalComponents = q.normalComponents) : p = q :=
  hp.eq_of_components hq
    ((normal?_components hp.2).trans (h.trans (normal?_components hq.2).symm))

/-- The normal form of an absolute path keeps the root. -/
theorem normalComponents_of_isAbsolute {p : Path} (h : p.isAbsolute = true) :
    ∃ names : List String, (∀ t ∈ names, IsName t) ∧
      p.normalComponents = .root :: names.map Component.name := by
  have hinner : p.normalComponents =
      (((segments p.text.toList).filterMap component?).foldl absorb [.root]).reverse := by
    simp [normalComponents, components, h, absorb]
  obtain ⟨names, hnames, heq⟩ := foldl_absorb
    (fun c (hc : c ∈ (segments p.text.toList).filterMap component?) => mem_filterMap_segments hc)
    (.inr rfl) [] (by simp)
  rw [List.map_nil, List.nil_append] at heq
  exact ⟨names.reverse, by simpa using hnames, by rw [hinner, heq]; simp⟩

theorem isLocation_of_normal? {p q : Path} (habsolute : p.isAbsolute = true)
    (h : p.normal? = some q) : q.IsLocation := by
  refine ⟨isAbsolute_iff.2 ?_, normal?_normal? h⟩
  obtain ⟨names, _, hnames⟩ := normalComponents_of_isAbsolute habsolute
  exact ⟨_, (normal?_components h).trans hnames⟩

/-- An absolute path has a normal form. -/
theorem isLocation_normalized {p : Path} (h : p.isAbsolute = true) : p.normalized.IsLocation := by
  obtain ⟨names, _, hnames⟩ := normalComponents_of_isAbsolute h
  have hnormal : p.normal? = some (ofComponents (.root :: names.map Component.name)) := by
    simp [normal?, hnames]
  rw [normalized, hnormal]
  exact isLocation_of_normal? h hnormal

/-- The directory of a location other than the root is absolute. -/
theorem IsInner.isAbsolute_directory {p : Path} (h : p.IsInner) :
    p.directory.isAbsolute = true := by
  obtain ⟨⟨habsolute, hnormal⟩, hroot⟩ := h
  obtain ⟨names, hnames, hcs⟩ := normalComponents_of_isAbsolute habsolute
  rw [← normal?_components hnormal] at hcs
  have hne : names ≠ [] := by
    rintro rfl
    exact hroot hcs
  have hparent : p.components.dropLast = .root :: names.dropLast.map Component.name := by
    rw [hcs, List.dropLast_cons_of_ne_nil (by simpa using hne), List.map_dropLast]
  have hplain : IsPlain (.root :: names.dropLast.map Component.name) :=
    ⟨[.root], names.dropLast, rfl, .inr rfl,
      fun t ht => hnames t ((List.dropLast_sublist _).subset ht)⟩
  rw [isAbsolute_iff, directory, hparent, components_ofComponents hplain (by simp)]
  exact ⟨_, rfl⟩

theorem isAbsolute_of_absolutize {base : Path} (h : base.isAbsolute = true)
    {directories : List Path} {q : Path} (hq : q ∈ absolutize base directories) :
    q.isAbsolute = true := by
  obtain ⟨d, _, hd⟩ := List.mem_filterMap.1 hq
  split at hd
  · rename_i habsolute
    exact (isLocation_of_normal? habsolute hd).1
  · exact (isLocation_of_normal? (isAbsolute_join h d) hd).1

end Path

namespace Reference

/-- The import was not found, or it was found at the normal form of its name taken from an absolute
directory. -/
def Anchored (r : Reference) : Prop :=
  ∀ q, r.resolved = some q →
    ∃ root : Path, root.isAbsolute = true ∧ (root.join ⟨r.normalized⟩).normal? = some q

theorem Anchored.isLocation {r : Reference} (h : r.Anchored) {q : Path} (hq : r.resolved = some q) :
    q.IsLocation := by
  obtain ⟨root, habsolute, hnormal⟩ := h q hq
  exact Path.isLocation_of_normal? (Path.isAbsolute_join habsolute _) hnormal

theorem anchored_of_unresolved {r : Reference} (h : r.resolved = none) : r.Anchored := by
  intro q hq
  cases h.symm.trans hq

theorem Anchored.of_eq {r r' : Reference} (h : r.Anchored) (hraw : r'.raw = r.raw)
    (hresolved : r'.resolved = r.resolved) : r'.Anchored := by
  intro q hq
  rw [normalized, hraw]
  exact h q (hresolved ▸ hq)

/-- The places where an import may be are such that it is anchored where it is found. -/
theorem anchored_of_candidates {r : Reference} {directory : Path} {libraries : List Path}
    (hdirectory : directory.isAbsolute = true)
    (hlibraries : ∀ l ∈ libraries, l.isAbsolute = true) {path : Path}
    (hpath : path ∈ r.candidates directory libraries) : (r.resolveTo path).Anchored := by
  rintro q ⟨⟩
  show ∃ root : Path, root.isAbsolute = true ∧
    (root.join ⟨r.normalized⟩).normal? = some path
  unfold candidates at hpath
  split at hpath
  · simp at hpath
  · unfold Path.candidates at hpath
    split at hpath
    · rename_i habsolute
      refine ⟨directory, hdirectory, ?_⟩
      rw [Path.join, if_pos habsolute]
      simpa using hpath
    · obtain ⟨root, hroot, hnormal⟩ := List.mem_filterMap.1 hpath
      refine ⟨root, ?_, hnormal⟩
      rcases List.mem_cons.1 hroot with rfl | hlibrary
      · exact hdirectory
      · exact hlibraries root hlibrary

end Reference

/-- The entry file of a project in an absolute directory is at a location. -/
theorem Project.isLocation_entry {directory : Path} (h : directory.isAbsolute = true)
    (entryFile : String) : (Project.of directory entryFile).entry.IsLocation :=
  Path.isLocation_normalized (Path.isAbsolute_join h _)

end AsmIndex

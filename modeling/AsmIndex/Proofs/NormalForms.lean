import AsmIndex.Proofs.Locations

/-!
Normal forms as canonical forms. A normal form is spelled in one way: an optional root and names,
with single separators between them. For absolute paths it is compatible with taking paths from a
directory: what is taken from a path leads to the same place as what is taken from its normal
form.
-/

namespace AsmIndex.Path

/-- A text that can be a name in a path. -/
def IsOrdinary (t : String) : Prop := t ≠ "" ∧ t ≠ "." ∧ t ≠ ".." ∧ '/' ∉ t.toList

/-- Names with separators between them, and one before them where the path is absolute. -/
def spelled (absolute : Bool) (names : List String) : Path :=
  ⟨(if absolute then "/" else "") ++ "/".intercalate names⟩

/-- The components of a path with these names. -/
def plain (absolute : Bool) (names : List String) : List Component :=
  (if absolute then [.root] else []) ++ names.map .name

/-- What the pieces of a path stand for, apart from a root or a `.` that it starts with. -/
def inner (p : Path) : List Component := (segments p.text.toList).filterMap component?

theorem isName_iff_isOrdinary {t : String} : IsName t ↔ IsOrdinary t := by
  have hempty : t.toList = [] ↔ t = "" := String.toList_eq_nil_iff
  have hdot : t.toList = ['.'] ↔ t = "." := by
    rw [← String.toList_inj]
    rfl
  have hdots : t.toList = ['.', '.'] ↔ t = ".." := by
    rw [← String.toList_inj]
    rfl
  simp only [IsName, IsOrdinary, component?, Bool.or_eq_true, List.isEmpty_iff, beq_iff_eq, hempty,
    hdot, hdots, String.ofList_toList]
  grind

theorem ofComponents_plain (absolute : Bool) (names : List String) :
    ofComponents (plain absolute names) = spelled absolute names := by
  cases absolute with
  | false =>
      have htexts : (plain false names).map Component.text = names := by
        simp [plain, Function.comp_def, Component.text]
      have hroot : plain false names ≠ [.root] := by
        cases names <;> simp [plain]
      unfold ofComponents
      split
      · contradiction
      · simp [htexts, spelled]
  | true =>
      cases names with
      | nil => rfl
      | cons t rest =>
          have htexts : (plain true (t :: rest)).map Component.text = "" :: t :: rest := by
            simp [plain, Function.comp_def, Component.text]
          unfold ofComponents
          split
          · rename_i hroot
            simp [plain] at hroot
          · rw [htexts, spelled, String.intercalate_cons_cons]
            simp

theorem segments_append_slash (xs ys : List Char) :
    segments (xs ++ '/' :: ys) = segments xs ++ segments ys := by
  induction xs with
  | nil => rfl
  | cons c xs ih =>
      by_cases hc : c = '/'
      · simp [segments, hc, ih]
      · obtain ⟨s, more, hxs, hcons⟩ := segments_cons hc xs
        rw [List.cons_append, segments, if_neg hc, ih, hxs, hcons]
        rfl

/-- What is taken from a directory is spelled after the directory and a separator. -/
theorem join_text {p q : Path} (hp : p.text.isEmpty = false) (hq : q.isAbsolute = false) :
    ∃ xs, (p.join q).text.toList = xs ++ '/' :: q.text.toList ∧
      (p.text.toList = xs ∨ p.text.toList = xs ++ ['/']) := by
  unfold join
  rw [hq, hp]
  simp only [Bool.false_eq_true, if_false, Bool.false_or]
  split
  · rename_i hslash
    obtain ⟨xs, hxs⟩ := List.getLast?_eq_some_iff.1 (beq_iff_eq.1 hslash)
    exact ⟨xs, by simp [String.toList_append, hxs], .inr hxs⟩
  · have hslash : "/".toList ++ q.text.toList = '/' :: q.text.toList := rfl
    refine ⟨p.text.toList, ?_, .inl rfl⟩
    rw [String.toList_append, String.toList_append, List.append_assoc, hslash]

theorem inner_join {p q : Path} (hp : p.text.isEmpty = false) (hq : q.isAbsolute = false) :
    (p.join q).inner = p.inner ++ q.inner := by
  have hidle : component? [] = none := rfl
  obtain ⟨xs, hjoin, htext⟩ := join_text hp hq
  rw [inner, inner, inner, hjoin, segments_append_slash, List.filterMap_append]
  rcases htext with htext | htext
  · rw [htext]
  · rw [htext, segments_append_slash]
    simp [segments, hidle]

theorem isAbsolute_join_eq {p q : Path} (hp : p.text.isEmpty = false) (hq : q.isAbsolute = false) :
    (p.join q).isAbsolute = p.isAbsolute := by
  obtain ⟨xs, hjoin, htext⟩ := join_text hp hq
  rw [isAbsolute, isAbsolute, hjoin]
  cases xs with
  | cons c rest => rcases htext with htext | htext <;> rw [htext] <;> rfl
  | nil =>
      rcases htext with htext | htext
      · simp [String.toList_eq_nil_iff.1 htext] at hp
      · rw [htext]
        rfl

theorem startsHere_join {p q : Path} (hp : p.text.isEmpty = false) (hq : q.isAbsolute = false) :
    (p.join q).startsHere = p.startsHere := by
  obtain ⟨xs, hjoin, htext⟩ := join_text hp hq
  have hhead : ∀ ys, (segments (xs ++ '/' :: ys)).head? = (segments xs).head? := by
    intro ys
    obtain ⟨s, more, hxs⟩ := List.exists_cons_of_ne_nil (segments_ne_nil xs)
    rw [segments_append_slash, hxs]
    rfl
  rw [startsHere, startsHere, hjoin, hhead]
  rcases htext with htext | htext
  · rw [htext]
  · rw [htext, hhead]

/-- What is taken from a directory has the components of the directory and then its own. -/
theorem components_join_inner {p q : Path} (hp : p.text.isEmpty = false)
    (hq : q.isAbsolute = false) : (p.join q).components = p.components ++ q.inner := by
  have hjoin := inner_join hp hq
  unfold inner at hjoin
  unfold components
  rw [isAbsolute_join_eq hp hq, startsHere_join hp hq, hjoin]
  dsimp only
  split
  · rfl
  · split <;> rfl

/-- Taking a path from a directory goes on where the normal form of the directory ends. -/
theorem normalComponents_join {p q : Path} (hp : p.text.isEmpty = false)
    (hq : q.isAbsolute = false) :
    (p.join q).normalComponents = (q.inner.foldl absorb p.normalComponents.reverse).reverse := by
  rw [normalComponents, normalComponents, components_join_inner hp hq, List.reverse_reverse,
    List.foldl_append]

theorem foldl_absorb_components {p : Path} (h : p.isAbsolute = false) (held : List Component) :
    p.components.foldl absorb held = p.inner.foldl absorb held := by
  simp only [components, h, Bool.false_eq_true, if_false]
  split <;> rfl

theorem normalComponents_of_relative {p : Path} (h : p.isAbsolute = false) :
    p.normalComponents = (p.inner.foldl absorb []).reverse := by
  rw [normalComponents, foldl_absorb_components h]

/-- The normal form of a path has names only, after the root if the path is absolute. -/
theorem normalComponents_eq_plain (p : Path) :
    ∃ names : List String, (∀ t ∈ names, IsOrdinary t) ∧
      p.normalComponents = plain p.isAbsolute names := by
  cases habsolute : p.isAbsolute with
  | true =>
      obtain ⟨names, hnames, heq⟩ := normalComponents_of_isAbsolute habsolute
      exact ⟨names, fun t ht => isName_iff_isOrdinary.1 (hnames t ht), heq⟩
  | false =>
      obtain ⟨names, hnames, heq⟩ := foldl_absorb
        (fun c (hc : c ∈ p.inner) => mem_filterMap_segments hc) (.inl rfl) [] (by simp)
      refine ⟨names.reverse, ?_, ?_⟩
      · intro t ht
        exact isName_iff_isOrdinary.1 (hnames t (List.mem_reverse.1 ht))
      · rw [List.map_nil, List.nil_append, List.append_nil] at heq
        rw [normalComponents_of_relative habsolute, heq]
        simp [plain]

theorem normal?_of_plain {p : Path} {absolute : Bool} {names : List String}
    (h : p.normalComponents = plain absolute names) (hne : plain absolute names ≠ []) :
    p.normal? = some (spelled absolute names) := by
  unfold normal?
  rw [h]
  split
  · contradiction
  · rw [ofComponents_plain]

theorem normal?_congr {p q : Path} (h : p.normalComponents = q.normalComponents) :
    p.normal? = q.normal? := by
  simp only [normal?, h]

theorem normal?_eq_none_iff {p : Path} : p.normal? = none ↔ p.normalComponents = [] := by
  unfold normal?
  split <;> simp_all

theorem normal?_eq_iff {p q : Path} :
    p.normal? = q.normal? ↔ p.normalComponents = q.normalComponents := by
  refine ⟨fun h => ?_, normal?_congr⟩
  cases hp : p.normal? with
  | none => rw [normal?_eq_none_iff.1 hp, normal?_eq_none_iff.1 (h ▸ hp)]
  | some r => rw [← normal?_components hp, ← normal?_components (h ▸ hp)]

/-- What is taken from two directories leads to one place where their normal forms are the same. -/
theorem normal?_join_of_same {p p' : Path} (hp : p.text.isEmpty = false)
    (hp' : p'.text.isEmpty = false) (hsame : p.normalComponents = p'.normalComponents) (q : Path) :
    (p.join q).normal? = (p'.join q).normal? := by
  cases hq : q.isAbsolute with
  | true => simp [join, hq]
  | false =>
      apply normal?_congr
      rw [normalComponents_join hp hq, normalComponents_join hp' hq, hsame]

/-- Paths with the same components, however they are spelled, lead from a directory to one place. -/
theorem normal?_join_of_components (p : Path) {q q' : Path} (h : q.components = q'.components) :
    (p.join q).normal? = (p.join q').normal? := by
  apply normal?_congr
  have habsolute : q.isAbsolute = q'.isAbsolute := by
    rw [Bool.eq_iff_iff, isAbsolute_iff, isAbsolute_iff, h]
  cases hq : q.isAbsolute with
  | true => simp [join, hq, ← habsolute, normalComponents, h]
  | false =>
      rw [hq] at habsolute
      cases hp : p.text.isEmpty with
      | true =>
          have hempty := String.isEmpty_iff.1 hp
          simp [join, hq, ← habsolute, hempty, normalComponents, h]
      | false =>
          rw [normalComponents_join hp hq, normalComponents_join hp habsolute.symm,
            ← foldl_absorb_components hq, ← foldl_absorb_components habsolute.symm, h]

theorem isAbsolute_of_plain {q : Path} {absolute : Bool} {names : List String}
    (h : q.components = plain absolute names) : q.isAbsolute = absolute := by
  rw [Bool.eq_iff_iff, isAbsolute_iff, h]
  cases absolute with
  | true => simp [plain]
  | false => cases names <;> simp [plain]

section Absolute

variable {p : Path}

theorem text_isEmpty_of_isAbsolute (h : p.isAbsolute = true) : p.text.isEmpty = false := by
  rw [Bool.eq_false_iff, ne_eq, String.isEmpty_iff]
  intro hempty
  simp [isAbsolute, hempty] at h

theorem normal?_join_congr {p' : Path} (h : p.isAbsolute = true) (h' : p'.isAbsolute = true)
    (hsame : p.normalComponents = p'.normalComponents) (q : Path) :
    (p.join q).normal? = (p'.join q).normal? :=
  normal?_join_of_same (text_isEmpty_of_isAbsolute h) (text_isEmpty_of_isAbsolute h') hsame q

theorem inner_of_isOrdinary {t : String} (h : IsOrdinary t) : inner ⟨t⟩ = [.name t] := by
  obtain ⟨hslash, hname⟩ := isName_iff_isOrdinary.2 h
  have hsegments : segments (joinSegments [t.toList]) = [t.toList] :=
    segments_joinSegments (by simpa using hslash) (by simp)
  rw [joinSegments] at hsegments
  simp [inner, hsegments, hname]

theorem isAbsolute_of_isOrdinary {t : String} (h : IsOrdinary t) : isAbsolute ⟨t⟩ = false := by
  rw [isAbsolute, beq_eq_false_iff_ne]
  intro hhead
  exact h.2.2.2 (List.mem_of_head? hhead)

theorem normalComponents_join_name {names : List String} (h : p.isAbsolute = true)
    (hnames : p.normalComponents = plain true names) {t : String} (ht : IsOrdinary t) :
    (p.join ⟨t⟩).normalComponents = plain true (names ++ [t]) := by
  rw [normalComponents_join (text_isEmpty_of_isAbsolute h) (isAbsolute_of_isOrdinary ht),
    inner_of_isOrdinary ht, hnames]
  simp [absorb, plain]

theorem normalComponents_join_parent {names : List String} (h : p.isAbsolute = true)
    (hnames : p.normalComponents = plain true names) :
    (p.join ⟨".."⟩).normalComponents = plain true names.dropLast := by
  have hinner : inner ⟨".."⟩ = [.parent] := rfl
  rw [normalComponents_join (text_isEmpty_of_isAbsolute h) rfl, hinner, hnames]
  -- The last name of the normal form is what `..` meets first.
  rcases List.eq_nil_or_concat names with rfl | ⟨rest, t, rfl⟩
  · rfl
  · simp [absorb, plain]

end Absolute

/-- Normal forms are canonical and compatible with `join`. A normal form has only names, after the
root if the path is absolute, and single separators between them; it is its own normal form. Every
absolute path has one; a name that is appended to the path is appended to the normal form, `..`
takes its last name away if it has one, and any path that is taken from the path leads where it
leads from the normal form. -/
theorem normal_form_canonical (p : Path) :
    (∀ q, p.normal? = some q →
      (∃ names, (∀ t ∈ names, IsOrdinary t) ∧ q.components = plain p.isAbsolute names ∧
        q = spelled p.isAbsolute names) ∧
      q.normal? = some q ∧ q.isAbsolute = p.isAbsolute) ∧
    (p.isAbsolute = true → ∃ names, (∀ t ∈ names, IsOrdinary t) ∧
      p.normal? = some (spelled true names) ∧
      (∀ t, IsOrdinary t → (p.join ⟨t⟩).normal? = some (spelled true (names ++ [t]))) ∧
      (p.join ⟨".."⟩).normal? = some (spelled true names.dropLast) ∧
      ∀ q, (p.join q).normal? = ((spelled true names).join q).normal?) := by
  obtain ⟨names, hordinary, hnames⟩ := p.normalComponents_eq_plain
  have hrooted : ∀ names, plain true names ≠ [] := by simp [plain]
  constructor
  · intro q hq
    have hcomponents := (normal?_components hq).trans hnames
    refine ⟨⟨names, hordinary, hcomponents, ?_⟩, normal?_normal? hq,
      isAbsolute_of_plain hcomponents⟩
    have hne : plain p.isAbsolute names ≠ [] := by
      intro hnil
      simp [normal?, hnames, hnil] at hq
    exact Option.some.inj (hq.symm.trans (normal?_of_plain hnames hne))
  · intro h
    rw [h] at hnames
    have hnormal := normal?_of_plain hnames (hrooted names)
    have hlocation := isLocation_of_normal? h hnormal
    refine ⟨names, hordinary, hnormal, ?_, ?_, ?_⟩
    · intro t ht
      exact normal?_of_plain (normalComponents_join_name h hnames ht) (hrooted _)
    · exact normal?_of_plain (normalComponents_join_parent h hnames) (hrooted _)
    · refine normal?_join_congr h hlocation.1 ?_
      rw [← normal?_components hnormal, ← normal?_components hlocation.2]

example : Path.normal? ⟨"/a//./b/../c/"⟩ = some (spelled true ["a", "c"]) := by decide +kernel

end AsmIndex.Path

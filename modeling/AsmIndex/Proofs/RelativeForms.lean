import AsmIndex.Proofs.NormalForms
import Mathlib.Data.List.TakeDrop

/-!
Normal forms of relative paths. A `..` that finds no name before it has nothing to take away, and
the normal form does without it; so the normal form of a relative path may lead elsewhere than the
path. It leads to the same place from every directory exactly where no beginning of the path has
more `..` than names.
-/

namespace AsmIndex.Path

/-- Whether a component is a name. -/
def Component.isName : Component → Bool
  | .name _ => true
  | _ => false

/-- How far components lead up above where they start, at their highest. -/
def climb : List Component → Nat
  | [] => 0
  | .parent :: cs => climb cs + 1
  | .name _ :: cs => climb cs - 1
  | _ :: cs => climb cs

/-- How far a relative path leads up above the directory that it is taken from. -/
def rise (p : Path) : Nat := climb p.inner

/-- No beginning of the path has more `..` than names. -/
def StaysInside (p : Path) : Prop :=
  ∀ cs, cs <+: p.inner → cs.count .parent ≤ cs.countP Component.isName

theorem forall_beginning_cons {α : Type} {P : List α → Prop} {a : α} {l : List α} :
    (∀ cs, cs <+: a :: l → P cs) ↔ P [] ∧ ∀ cs, cs <+: l → P (a :: cs) := by
  constructor
  · intro h
    exact ⟨h [] List.nil_prefix, fun cs hcs => h _ (List.cons_prefix_cons.2 ⟨rfl, hcs⟩)⟩
  · rintro ⟨hnil, hcons⟩ cs hcs
    rcases List.prefix_cons_iff.1 hcs with rfl | ⟨rest, rfl, hrest⟩
    · exact hnil
    · exact hcons rest hrest

/-- Components lead up as far as their `..` outnumber their names in some beginning. -/
theorem climb_le_iff {cs : List Component} {n : Nat} :
    climb cs ≤ n ↔ ∀ bs, bs <+: cs →
      bs.count .parent ≤ bs.countP Component.isName + n := by
  induction cs generalizing n with
  | nil => simp [climb]
  | cons c cs ih =>
      rw [forall_beginning_cons]
      cases c with
      | root | current => simp [climb, ih, Component.isName]
      | parent =>
          cases n with
          | zero =>
              simp only [climb, Nat.le_zero]
              constructor
              · simp
              · rintro ⟨_, h⟩
                have hup := h [] List.nil_prefix
                simp [Component.isName] at hup
          | succ n =>
              rw [climb, Nat.add_le_add_iff_right, ih]
              simp [Component.isName, ← Nat.add_assoc]
      | name t =>
          rw [climb, Nat.sub_le_iff_le_add, ih]
          simp only [List.count_nil, Nat.zero_le, true_and]
          refine forall₂_congr fun bs _ => ?_
          rw [List.count_cons_of_ne (by simp), List.countP_cons_of_pos (by rfl), Nat.add_right_comm,
            Nat.add_assoc]

theorem staysInside_iff (p : Path) : p.StaysInside ↔ p.rise = 0 := by
  rw [← Nat.le_zero, rise, climb_le_iff]
  rfl

/-- Components that are absorbed on top of names take away as many of them as they climb. -/
theorem foldl_absorb_onto {cs : List Component}
    (h : ∀ c ∈ cs, c = .parent ∨ ∃ t, c = .name t) {root : List Component}
    (hroot : root = [] ∨ root = [.root]) (names : List String) :
    cs.foldl absorb (names.map .name ++ root) =
      cs.foldl absorb [] ++ ((names.drop (climb cs)).map .name ++ root) := by
  induction cs generalizing names root with
  | nil => simp [climb]
  | cons c cs ih =>
      have hcs : ∀ c ∈ cs, c = .parent ∨ ∃ t, c = .name t := fun c hc => h c (by simp [hc])
      rcases h c (by simp) with rfl | ⟨t, rfl⟩
      · cases names with
        | nil =>
            have hstop : absorb root .parent = root := by
              rcases hroot with rfl | rfl <;> rfl
            have hnone : absorb [] .parent = [] := rfl
            simpa [hstop, hnone] using ih hcs hroot []
        | cons t names => simpa [absorb, climb] using ih hcs hroot names
      · -- The name is absorbed like one more of those below, from which it may be taken
        -- away again.
        have hall := ih hcs hroot (t :: names)
        have hone := ih hcs (.inl rfl) [t]
        have hpush : ∀ held, absorb held (.name t) = .name t :: held := fun _ => rfl
        simp only [List.map_cons, List.map_nil, List.cons_append, List.append_nil] at hall hone
        rw [List.foldl_cons, List.foldl_cons, hpush, hpush, hall, hone, climb]
        cases climb cs <;> simp

theorem normalComponents_join_relative {a p : Path} {names below : List String}
    (ha : a.isAbsolute = true) (hnames : a.normalComponents = plain true names)
    (hp : p.isAbsolute = false) (hbelow : p.normalComponents = plain false below) :
    (a.join p).normalComponents =
      plain true (names.take (names.length - p.rise) ++ below) := by
  have hinner : ∀ c ∈ p.inner, c = .parent ∨ ∃ t, c = .name t := by
    intro c hc
    exact (mem_filterMap_segments hc).imp_right fun ⟨t, ht, _⟩ => ⟨t, ht⟩
  have hheld : (plain true names).reverse = names.reverse.map .name ++ [.root] := by
    simp [plain]
  have hfold : p.inner.foldl absorb [] = (below.map Component.name).reverse := by
    rw [normalComponents_of_relative hp] at hbelow
    rw [← List.reverse_reverse (p.inner.foldl absorb []), hbelow]
    simp [plain]
  rw [normalComponents_join (text_isEmpty_of_isAbsolute ha) hp, hnames, hheld,
    foldl_absorb_onto hinner (.inr rfl), hfold, List.drop_reverse]
  simp [plain, rise]

theorem inner_of_plain {q : Path} {names : List String} (h : q.components = plain false names) :
    q.inner = names.map .name := by
  have habsolute := isAbsolute_of_plain h
  simp only [components, habsolute, Bool.false_eq_true, if_false] at h
  split at h
  · cases names <;> cases h
  · exact h

/-- Names alone lead nowhere up. -/
theorem rise_of_plain {q : Path} {names : List String} (h : q.components = plain false names) :
    q.rise = 0 := by
  rw [← staysInside_iff, StaysInside, inner_of_plain h]
  intro cs hcs
  have hnone : Component.parent ∉ cs := fun hmem => by simpa using hcs.subset hmem
  simp [List.count_eq_zero_of_not_mem hnone]

theorem plain_inj {absolute : Bool} {names names' : List String} :
    plain absolute names = plain absolute names' ↔ names = names' := by
  rw [plain, plain, List.append_cancel_left_eq]
  exact List.map_inj_right fun _ _ h => Component.name.inj h

theorem normal?_eq_root_iff {a : Path} {names : List String}
    (h : a.normalComponents = plain true names) : a.normal? = some ⟨"/"⟩ ↔ names = [] := by
  have hroot : Path.normal? ⟨"/"⟩ = some ⟨"/"⟩ := rfl
  have hcomponents : Path.normalComponents ⟨"/"⟩ = plain true [] := rfl
  rw [← hroot, normal?_eq_iff, h, hcomponents, plain_inj]

/-- Normal forms of relative paths, taken from an absolute directory. What is taken from the
directory by the normal form stands below the normal form of the directory; what is taken by the
path itself stands as many names further up as the path leads up above its start. So the normal
form of a relative path leads to the same place as the path exactly where no beginning of the path
has more `..` than names, or where the directory is the root. -/
theorem relative_normal_form (a p q : Path) (ha : a.isAbsolute = true) (hp : p.isAbsolute = false)
    (hq : p.normal? = some q) :
    ∃ names below, a.normal? = some (spelled true names) ∧ q = spelled false below ∧
      (a.join q).normal? = some (spelled true (names ++ below)) ∧
      (a.join p).normal? = some (spelled true (names.take (names.length - p.rise) ++ below)) ∧
      ((a.join q).normal? = (a.join p).normal? ↔ p.StaysInside ∨
        a.normal? = some ⟨"/"⟩) := by
  have hrooted : ∀ names, plain true names ≠ [] := by simp [plain]
  obtain ⟨names, hordinary, hnames⟩ := a.normalComponents_eq_plain
  obtain ⟨below, _, hbelow⟩ := p.normalComponents_eq_plain
  rw [ha] at hnames
  rw [hp] at hbelow
  have hne : plain false below ≠ [] := by
    intro hnil
    simp [normal?, hbelow, hnil] at hq
  have hqcomponents : q.components = plain false below := (normal?_components hq).trans hbelow
  have hqrelative := isAbsolute_of_plain hqcomponents
  have hqbelow : q.normalComponents = plain false below :=
    (normal?_components (normal?_normal? hq)).symm.trans hqcomponents
  have hjoin := normalComponents_join_relative ha hnames hp hbelow
  have hjoin' := normalComponents_join_relative ha hnames hqrelative hqbelow
  rw [rise_of_plain hqcomponents, Nat.sub_zero, List.take_length] at hjoin'
  have hnormal := normal?_of_plain hnames (hrooted names)
  refine ⟨names, below, hnormal, ?_, normal?_of_plain hjoin' (hrooted _),
    normal?_of_plain hjoin (hrooted _), ?_⟩
  · exact Option.some.inj (hq.symm.trans (normal?_of_plain hbelow hne))
  · rw [normal?_eq_iff, hjoin, hjoin', plain_inj, staysInside_iff, normal?_eq_root_iff hnames,
      List.append_cancel_right_eq]
    cases names with
    | nil => simp
    | cons t rest =>
        rw [eq_comm, List.take_eq_self_iff, List.length_cons]
        constructor
        · intro hle
          exact .inl (by omega)
        · rintro (hinside | hnil)
          · omega
          · cases hnil

/-- A path that leads up past the name before its second `..`. -/
theorem relative_normal_form_sibling :
    (isAbsolute ⟨"/a/b/c"⟩ = true ∧ isAbsolute ⟨"x/../../y"⟩ = false ∧
      normal? ⟨"x/../../y"⟩ = some ⟨"y"⟩) ∧
    (∃ names below, normal? ⟨"/a/b/c"⟩ = some (spelled true names) ∧
      ⟨"y"⟩ = spelled false below ∧
      (join ⟨"/a/b/c"⟩ ⟨"y"⟩).normal? = some (spelled true (names ++ below)) ∧
      (join ⟨"/a/b/c"⟩ ⟨"x/../../y"⟩).normal? =
        some (spelled true (names.take (names.length - rise ⟨"x/../../y"⟩) ++ below)) ∧
      ((join ⟨"/a/b/c"⟩ ⟨"y"⟩).normal? = (join ⟨"/a/b/c"⟩ ⟨"x/../../y"⟩).normal? ↔
        StaysInside ⟨"x/../../y"⟩ ∨ normal? ⟨"/a/b/c"⟩ = some ⟨"/"⟩)) :=
  ⟨by decide +kernel, relative_normal_form _ _ _ (by decide +kernel) (by decide +kernel)
    (by decide +kernel)⟩

/-- The normal form of a path that starts with `..` leads elsewhere than the path. A file beside a
directory is taken for a file in it, and a project beside the present directory for one in it. -/
theorem leading_parent_lost :
    isAbsolute ⟨"/a/b"⟩ = true ∧ isAbsolute ⟨"../x.asm"⟩ = false ∧
    normal? ⟨"../x.asm"⟩ = some ⟨"x.asm"⟩ ∧
    (join ⟨"/a/b"⟩ ⟨"x.asm"⟩).normal? ≠ (join ⟨"/a/b"⟩ ⟨"../x.asm"⟩).normal? ∧
    (Project.of (normalized ⟨"../p"⟩) "main.asm").entry = ⟨"p/main.asm"⟩ := by
  decide +kernel

end AsmIndex.Path

import AsmIndex.Condition.Parse
import Mathlib.Data.List.Sort

/-!
Laws of symbol sets. A set is determined by its names, and a condition by whether the names in it
are defined.
-/

namespace AsmIndex

namespace Symbols

/-- Sets with the same names are equal. -/
theorem ext_names {s t : Symbols} (h : ∀ x, x ∈ s.names ↔ x ∈ t.names) : s = t := by
  have hantisymm : Std.Antisymm (α := String) (· < ·) :=
    ⟨fun _ _ h h' => absurd h' (String.lt_asymm h)⟩
  have hirrefl : Std.Irrefl (α := String) (· < ·) := ⟨String.lt_irrefl⟩
  have hnames : s.names = t.names := s.sorted.eq_of_mem_iff t.sorted h
  cases s
  cases t
  cases hnames
  rfl

theorem contains_insert (s : Symbols) (name x : String) :
    (s.insert name).contains x = (x == name || s.contains x) := by
  rw [Bool.eq_iff_iff]
  simp [contains, mem_insert]

theorem insert_comm (s : Symbols) (a b : String) :
    (s.insert a).insert b = (s.insert b).insert a := by
  apply ext_names
  intro x
  simp only [mem_insert]
  exact or_left_comm

theorem erase_insert_of_ne (s : Symbols) {a b : String} (h : a ≠ b) :
    (s.insert a).erase b = (s.erase b).insert a := by
  apply ext_names
  intro x
  simp only [mem_insert, mem_erase]
  constructor
  · rintro ⟨rfl | hx, hne⟩
    · exact .inl rfl
    · exact .inr ⟨hx, hne⟩
  · rintro (rfl | ⟨hx, hne⟩)
    · exact ⟨.inl rfl, h⟩
    · exact ⟨.inr hx, hne⟩

theorem insert_erase (s : Symbols) (a : String) : (s.erase a).insert a = s.insert a := by
  apply ext_names
  intro x
  simp only [mem_insert, mem_erase]
  constructor
  · exact Or.imp_right And.left
  · rintro (rfl | hx)
    · exact .inl rfl
    · by_cases hxa : x = a
      · exact .inl hxa
      · exact .inr ⟨hx, hxa⟩

/-- A name that is there already finds its place at itself. -/
theorem insert_eq_place (s : Symbols) (name : String) :
    s.insert name = ⟨place name s.names, place_sorted name s.sorted⟩ := by
  apply ext_names
  intro x
  rw [mem_insert]
  exact mem_place.symm

theorem erase_eq_filter (s : Symbols) (name : String) :
    s.erase name = ⟨s.names.filter (· != name), s.sorted.filter _⟩ := by
  apply ext_names
  intro x
  simp [mem_erase]

theorem mem_foldl_insert {l : List String} {s : Symbols} {x : String} :
    x ∈ (l.foldl insert s).names ↔ x ∈ l ∨ x ∈ s.names := by
  induction l generalizing s with
  | nil => simp
  | cons name rest ih =>
      rw [List.foldl_cons, ih, mem_insert, List.mem_cons]
      exact or_left_comm.trans or_assoc.symm

theorem mem_ofList {l : List String} {x : String} : x ∈ (ofList l).names ↔ x ∈ l := by
  simp [ofList, mem_foldl_insert, empty]

theorem ofList_names (s : Symbols) : ofList s.names = s :=
  ext_names fun _ => mem_ofList

theorem names_of_isEmpty {s : Symbols} (h : s.isEmpty = true) : s.names = [] :=
  List.isEmpty_iff.1 h

/-- Where one of the sets has no names, the names of both are those of the other. -/
theorem union_eq_ofList (s t : Symbols) : s.union t = ofList (s.names ++ t.names) := by
  unfold union
  split
  · rename_i ht
    rw [names_of_isEmpty ht, List.append_nil, ofList_names]
  · split
    · rename_i hs
      rw [names_of_isEmpty hs, List.nil_append, ofList_names]
    · rfl

theorem mem_union {s t : Symbols} {x : String} :
    x ∈ (s.union t).names ↔ x ∈ s.names ∨ x ∈ t.names := by
  rw [union_eq_ofList, mem_ofList, List.mem_append]

theorem union_comm (s t : Symbols) : s.union t = t.union s := by
  apply ext_names
  intro x
  rw [mem_union, mem_union]
  exact or_comm

theorem union_assoc (s t u : Symbols) : (s.union t).union u = s.union (t.union u) := by
  apply ext_names
  intro x
  simp only [mem_union]
  exact or_assoc

theorem union_self (s : Symbols) : s.union s = s := by
  apply ext_names
  intro x
  rw [mem_union]
  exact or_self_iff

/-- Sets are ordered as their lists of names are, name by name. -/
theorem compare_eq_lt_iff {s t : Symbols} :
    compare s t = .lt ↔ List.Lex (· < ·) s.names t.names := by
  have hlists : ∀ l l' : List String, compare l l' = .lt ↔ List.Lex (· < ·) l l' := by
    intro l l'
    induction l generalizing l' with
    | nil => cases l' <;> simp
    | cons x l ih =>
        cases l' with
        | nil => simp
        | cons y l' =>
            have hname : compare x y = .lt ↔ x < y := compareOfLessAndEq_eq_lt
            rw [List.compare_cons_cons, Ordering.then_eq_lt, ih, List.cons_lex_cons_iff, hname,
              Std.compare_eq_iff_eq]
  exact hlists s.names t.names

end Symbols

namespace Condition

/-- The names in a condition. -/
def names : Condition → List String
  | symbol name => [name]
  | negation c => c.names
  | both l r | either l r | equal l r | differ l r => l.names ++ r.names

/-- A condition holds or not depending on its names alone. -/
theorem holds_congr {c : Condition} {s t : Symbols}
    (h : ∀ x ∈ c.names, s.contains x = t.contains x) : c.holds s = c.holds t := by
  induction c with
  | symbol name => exact h name (by simp [names])
  | negation c ih => simp only [holds, ih h]
  | both l r ihl ihr | either l r ihl ihr | equal l r ihl ihr | differ l r ihl ihr =>
      simp only [names, List.mem_append] at h
      simp only [holds, ihl fun x hx => h x (.inl hx), ihr fun x hx => h x (.inr hx)]

/-- The names in a text that is read as a condition. -/
def identifiers (cs : List Char) : List String :=
  match parse cs with
  | .ok c => c.names
  | .error _ => []

theorem evaluate_insert {cs : List Char} {name : String} (h : name ∉ identifiers cs)
    (s : Symbols) :
    evaluate cs (s.insert name) = evaluate cs s := by
  unfold evaluate
  unfold identifiers at h
  cases hparse : parse cs with
  | error e => rfl
  | ok c =>
      rw [hparse] at h
      refine congrArg Except.ok (holds_congr ?_)
      intro x hx
      have hne : x ≠ name := fun hxn => h (hxn ▸ hx)
      simp [Symbols.contains_insert, hne]

end Condition

end AsmIndex

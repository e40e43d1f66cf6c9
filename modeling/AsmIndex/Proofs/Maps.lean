import AsmIndex.Index
import AsmIndex.Index.Changes
import Mathlib.Data.List.Perm.Subperm

/-!
Laws of finite maps and of indexes. A map answers for keys that compare equal alike, and what it
holds is what a lookup gives; an index answers by the components of a path and by symbols. In a
log, the last entry that answers wins.
-/

namespace AsmIndex

/-- A new entry of a log answers, or else the last one before it that does. -/
theorem getLast?_filterMap_concat {α β : Type} (f : α → Option β) (l : List α) (a : α) :
    ((l ++ [a]).filterMap f).getLast? = (f a).or (l.filterMap f).getLast? := by
  cases h : f a <;> simp [h]

namespace OrderedMap

variable {κ α : Type} [Ord κ]

theorem lookup_congr [Std.TransOrd κ] {k k' : κ} (h : compare k k' = .eq) (l : List (κ × α)) :
    lookup k l = lookup k' l := by
  induction l with
  | nil => rfl
  | cons e rest ih =>
      have hc : compare k e.1 = compare k' e.1 := Std.TransCmp.congr_left h
      simp only [lookup, hc, ih]

theorem get?_congr [Std.TransOrd κ] {k k' : κ} (h : compare k k' = .eq) (m : OrderedMap κ α) :
    m.get? k = m.get? k' :=
  lookup_congr h m.entries

theorem contains_congr [Std.TransOrd κ] {k k' : κ} (h : compare k k' = .eq)
    (m : OrderedMap κ α) : m.contains k = m.contains k' := by
  simp only [contains, get?_congr h]

@[simp] theorem contains_empty (k : κ) : (empty : OrderedMap κ α).contains k = false := rfl

theorem contains_insert [Std.TransOrd κ] (m : OrderedMap κ α) (k k' : κ) (v : α) :
    (m.insert k v).contains k' = true ↔ compare k' k = .eq ∨ m.contains k' = true := by
  simp only [contains, get?_insert]
  split <;> simp_all

theorem lookup_filter [Std.TransOrd κ] (k k' : κ) (l : List (κ × α)) :
    lookup k' (l.filter fun e => compare k e.1 != .eq) =
      if compare k' k = .eq then none else lookup k' l := by
  induction l with
  | nil => simp [lookup]
  | cons e rest ih =>
      by_cases hk : compare k e.1 = .eq
      · have hc : compare k' k = compare k' e.1 := Std.TransCmp.congr_right hk
        by_cases h : compare k' e.1 = .eq <;> simp_all [lookup]
      · by_cases h : compare k' e.1 = .eq
        · have hne : compare k' k ≠ .eq := by
            intro h1
            exact hk ((Std.TransCmp.congr_left h1).symm.trans h)
          simp [lookup, hk, h, hne]
        · simp [lookup, hk, h, ih]

theorem get?_erase [Std.TransOrd κ] (m : OrderedMap κ α) (k k' : κ) :
    (m.erase k).get? k' = if compare k' k = .eq then none else m.get? k' :=
  lookup_filter k k' m.entries

theorem mem_of_lookup {k : κ} {v : α} {l : List (κ × α)} (h : lookup k l = some v) :
    ∃ k', compare k k' = .eq ∧ (k', v) ∈ l := by
  induction l with
  | nil => simp [lookup] at h
  | cons e rest ih =>
      unfold lookup at h
      split at h
      · rename_i heq
        cases h
        exact ⟨e.1, heq, by simp⟩
      · obtain ⟨k', hk, hmem⟩ := ih h
        exact ⟨k', hk, by simp [hmem]⟩

theorem lookup_of_mem [Std.TransOrd κ] {k : κ} {v : α} {l : List (κ × α)}
    (hs : l.Pairwise (fun a b => compare a.1 b.1 = .lt)) (h : (k, v) ∈ l) :
    lookup k l = some v := by
  induction l with
  | nil => simp at h
  | cons e rest ih =>
      obtain ⟨hhd, hrest⟩ := List.pairwise_cons.1 hs
      rcases List.mem_cons.1 h with rfl | hmem
      · simp [lookup]
      · have hgt : compare k e.1 = .gt := Std.OrientedCmp.gt_iff_lt.2 (hhd _ hmem)
        simp [lookup, hgt, ih hrest hmem]

theorem mem_entries_of_get? {m : OrderedMap κ α} {k : κ} {v : α} (h : m.get? k = some v) :
    ∃ k', compare k k' = .eq ∧ (k', v) ∈ m.entries :=
  mem_of_lookup h

theorem get?_of_mem_entries [Std.TransOrd κ] {m : OrderedMap κ α} {k : κ} {v : α}
    (h : (k, v) ∈ m.entries) : m.get? k = some v :=
  lookup_of_mem m.sorted h

theorem mem_values_of_get? {m : OrderedMap κ α} {k : κ} {v : α} (h : m.get? k = some v) :
    v ∈ m.values := by
  obtain ⟨_, _, hmem⟩ := mem_entries_of_get? h
  exact List.mem_map.2 ⟨_, hmem, rfl⟩

theorem mem_keys_iff [Std.TransOrd κ] [Std.LawfulEqOrd κ] {m : OrderedMap κ α} {k : κ} :
    k ∈ m.keys ↔ m.contains k = true := by
  simp only [keys, contains, Option.isSome_iff_exists, List.mem_map]
  constructor
  · rintro ⟨e, he, rfl⟩
    exact ⟨e.2, get?_of_mem_entries he⟩
  · rintro ⟨v, hv⟩
    obtain ⟨k', hk, hmem⟩ := mem_entries_of_get? hv
    exact ⟨(k', v), hmem, (Std.compare_eq_iff_eq.1 hk).symm⟩

theorem nodup_keys [Std.TransOrd κ] (m : OrderedMap κ α) : m.keys.Nodup := by
  refine List.Pairwise.map _ (fun a b h => ?_) m.sorted
  intro heq
  rw [heq] at h
  simp at h

section MapValues

variable {β : Type}

/-- The map with a function applied to each value. -/
def mapValues (f : α → β) (m : OrderedMap κ α) : OrderedMap κ β where
  entries := m.entries.map fun e => (e.1, f e.2)
  sorted := List.pairwise_map.2 m.sorted

theorem lookup_map (f : α → β) (k : κ) (l : List (κ × α)) :
    lookup k (l.map fun e => (e.1, f e.2)) = (lookup k l).map f := by
  induction l with
  | nil => rfl
  | cons e rest ih =>
      simp only [List.map_cons, lookup, ih]
      split <;> rfl

theorem store_map (f : α → β) (k : κ) (v : α) (l : List (κ × α)) :
    store k (f v) (l.map fun e => (e.1, f e.2)) = (store k v l).map fun e => (e.1, f e.2) := by
  induction l with
  | nil => rfl
  | cons e rest ih =>
      simp only [List.map_cons, store, ih]
      split <;> rfl

theorem get?_mapValues (f : α → β) (m : OrderedMap κ α) (k : κ) :
    (m.mapValues f).get? k = (m.get? k).map f :=
  lookup_map f k m.entries

theorem mapValues_insert [Std.TransOrd κ] (f : α → β) (m : OrderedMap κ α)
    (k : κ) (v : α) :
    (m.insert k v).mapValues f = (m.mapValues f).insert k (f v) := by
  simp only [mapValues, insert, store_map]

theorem keys_mapValues (f : α → β) (m : OrderedMap κ α) : (m.mapValues f).keys = m.keys := by
  simp [keys, mapValues]

theorem values_mapValues (f : α → β) (m : OrderedMap κ α) :
    (m.mapValues f).values = m.values.map f := by
  simp [values, mapValues]

end MapValues

end OrderedMap

namespace Index

@[simp] theorem get?_empty (p : Path) (s : Symbols) :
    (Index.mk OrderedMap.empty).get? p s = none :=
  rfl

theorem get?_eq_some {index : Index} {p : Path} {s : Symbols} {v : Variant} :
    index.get? p s = some v ↔ ∃ set, index.files.get? p = some set ∧ set.get? s = some v :=
  Option.bind_eq_some_iff

theorem get?_of_mem_entries {index : Index} {p : Path} {set : VariantSet} {s : Symbols}
    {v : Variant} (hset : (p, set) ∈ index.files.entries) (hv : (s, v) ∈ set.entries) :
    index.get? p s = some v :=
  get?_eq_some.2
    ⟨set, OrderedMap.get?_of_mem_entries hset, OrderedMap.get?_of_mem_entries hv⟩

theorem exists_of_mem_variants {index : Index} {v : Variant} (h : v ∈ index.variants) :
    ∃ p s, index.get? p s = some v := by
  obtain ⟨set, hset, hv⟩ := List.mem_flatMap.1 h
  obtain ⟨⟨p, _⟩, hp, rfl⟩ := List.mem_map.1 hset
  obtain ⟨⟨s, _⟩, hs, rfl⟩ := List.mem_map.1 hv
  exact ⟨p, s, get?_of_mem_entries hp hs⟩

theorem mem_variants_of_get? {index : Index} {p : Path} {s : Symbols} {v : Variant}
    (h : index.get? p s = some v) : v ∈ index.variants := by
  obtain ⟨set, hset, hv⟩ := get?_eq_some.1 h
  exact List.mem_flatMap.2
    ⟨set, OrderedMap.mem_values_of_get? hset, OrderedMap.mem_values_of_get? hv⟩

theorem get?_congr {p q : Path} (h : p.components = q.components) (ix : Index) (s : Symbols) :
    ix.get? p s = ix.get? q s := by
  simp only [get?, OrderedMap.get?_congr (Path.compare_eq_iff.2 h)]

theorem contains_congr {p q : Path} (h : p.components = q.components) (ix : Index)
    (s : Symbols) : ix.contains p s = ix.contains q s := by
  simp only [contains, get?_congr h]

theorem get?_insert (ix : Index) (p q : Path) (s t : Symbols) (v : Variant) :
    (ix.insert p s v).get? q t =
      if q.components = p.components ∧ t = s then some v else ix.get? q t := by
  simp only [get?, insert, OrderedMap.get?_insert, Path.compare_eq_iff]
  by_cases hq : q.components = p.components
  · have hget : ix.files.get? q = ix.files.get? p :=
      OrderedMap.get?_congr (Path.compare_eq_iff.2 hq) _
    cases hset : ix.files.get? p with
    | none => by_cases ht : t = s <;> simp [hq, hget, hset, ht, OrderedMap.get?_insert]
    | some set => by_cases ht : t = s <;> simp [hq, hget, hset, ht, OrderedMap.get?_insert]
  · simp [hq]

theorem get?_insert_self (ix : Index) (p : Path) (s : Symbols) (v : Variant) :
    (ix.insert p s v).get? p s = some v := by
  simp [get?_insert]

theorem contains_insert (ix : Index) (p q : Path) (s t : Symbols) (v : Variant) :
    (ix.insert p s v).contains q t = true ↔
      (q.components = p.components ∧ t = s) ∨ ix.contains q t = true := by
  simp only [contains, get?_insert]
  split <;> simp_all

theorem contains_iff {ix : Index} {p : Path} {s : Symbols} :
    ix.contains p s = true ↔ ∃ v, ix.get? p s = some v := by
  simp [contains, Option.isSome_iff_exists]

/-- What holds of all variants of an index and of a new one holds of all once it is put in. -/
theorem forall_insert {P : Path → Symbols → Variant → Prop}
    (hcongr : ∀ {p q s v}, q.components = p.components → P p s v → P q s v) {ix : Index}
    (h : ∀ p s v, ix.get? p s = some v → P p s v) {p : Path} {s : Symbols} {v : Variant}
    (hv : P p s v) (q : Path) (t : Symbols) (u : Variant)
    (hu : (ix.insert p s v).get? q t = some u) : P q t u := by
  rw [get?_insert] at hu
  split at hu
  · rename_i hkey
    obtain ⟨hq, rfl⟩ := hkey
    cases hu
    exact hcongr hq hv
  · exact h q t u hu

end Index

end AsmIndex

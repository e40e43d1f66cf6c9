import AsmIndex.Proofs.Maps

/-!
What the difference of two indexes says. Sets of variants are the same where they hold variants of
one identity under each set of symbols, and a difference is empty where the two indexes have the
same files with the same sets.
-/

namespace AsmIndex

namespace VariantSet

theorem get?_of_same {a b : VariantSet} (h : VariantSet.same a b = true) {s : Symbols}
    {v : Variant} (hv : a.get? s = some v) : ∃ w, b.get? s = some w ∧ v.id = w.id := by
  simp only [VariantSet.same, Bool.and_eq_true, List.all_eq_true] at h
  obtain ⟨s', hs, hmem⟩ := OrderedMap.mem_entries_of_get? hv
  obtain rfl : s = s' := Std.compare_eq_iff_eq.1 hs
  have hentry := h.2 (s, v) hmem
  cases hw : b.get? s with
  | none => simp [hw] at hentry
  | some w => exact ⟨w, rfl, by simpa [hw] using hentry⟩

theorem keys_perm_of_same {a b : VariantSet} (h : VariantSet.same a b = true) :
    a.keys.Perm b.keys := by
  have hsub : a.keys ⊆ b.keys := by
    intro s hs
    rw [OrderedMap.mem_keys_iff, OrderedMap.contains, Option.isSome_iff_exists] at hs ⊢
    obtain ⟨v, hv⟩ := hs
    obtain ⟨w, hw, _⟩ := get?_of_same h hv
    exact ⟨w, hw⟩
  have hsize : a.size = b.size := by
    simp only [VariantSet.same, Bool.and_eq_true, beq_iff_eq] at h
    exact h.1
  refine (List.subperm_of_subset (OrderedMap.nodup_keys a) hsub).perm_of_length_le ?_
  simp only [OrderedMap.keys, List.length_map]
  exact Nat.le_of_eq hsize.symm

/-- Two sets are the same where they hold variants of one identity under each set of symbols. -/
theorem same_iff {a b : VariantSet} :
    VariantSet.same a b = true ↔
      ∀ s, (a.get? s).map Variant.id = (b.get? s).map Variant.id := by
  constructor
  · intro h s
    cases ha : a.get? s with
    | some v =>
        obtain ⟨w, hw, hid⟩ := get?_of_same h ha
        simp [hw, hid]
    | none =>
        cases hb : b.get? s with
        | none => rfl
        | some w =>
            have hmem : s ∈ b.keys :=
              OrderedMap.mem_keys_iff.2 (by simp [OrderedMap.contains, hb])
            have hmem' := OrderedMap.mem_keys_iff.1 ((keys_perm_of_same h).mem_iff.2 hmem)
            simp [OrderedMap.contains, ha] at hmem'
  · intro h
    have hkeys : a.keys.Perm b.keys := by
      rw [List.perm_ext_iff_of_nodup (OrderedMap.nodup_keys a) (OrderedMap.nodup_keys b)]
      intro s
      have hs := congrArg Option.isSome (h s)
      simp only [Option.isSome_map] at hs
      simp only [OrderedMap.mem_keys_iff, OrderedMap.contains, hs]
    simp only [VariantSet.same, Bool.and_eq_true, beq_iff_eq, List.all_eq_true]
    refine ⟨by simpa [OrderedMap.keys, OrderedMap.size] using hkeys.length_eq, ?_⟩
    rintro ⟨s, v⟩ hmem
    have hs := h s
    rw [OrderedMap.get?_of_mem_entries hmem, Option.map_some] at hs
    obtain ⟨w, hw, hid⟩ := Option.map_eq_some_iff.1 hs.symm
    simp [hw, hid]

end VariantSet

namespace Index

theorem containsPath_congr {p q : Path} (h : p.components = q.components) (ix : Index) :
    ix.containsPath p = ix.containsPath q :=
  OrderedMap.contains_congr (Path.compare_eq_iff.2 h) _

theorem get?_of_containsPath {ix : Index} {p : Path} (h : ix.containsPath p = false) (s : Symbols) :
    ix.get? p s = none := by
  have hnone : ix.files.get? p = none := by simpa [containsPath, OrderedMap.contains] using h
  simp [get?, hnone]

/-- The paths of an index are, in some spelling, those that it contains. -/
theorem containsPath_iff {ix : Index} {p : Path} :
    ix.containsPath p = true ↔ ∃ q ∈ ix.paths, q.components = p.components := by
  simp only [containsPath, paths, OrderedMap.contains, OrderedMap.keys, Option.isSome_iff_exists,
    List.mem_map]
  constructor
  · rintro ⟨set, hset⟩
    obtain ⟨q, hq, hmem⟩ := OrderedMap.mem_entries_of_get? hset
    exact ⟨q, ⟨(q, set), hmem, rfl⟩, (Path.compare_eq_iff.1 hq).symm⟩
  · rintro ⟨q, ⟨e, hmem, rfl⟩, hq⟩
    refine ⟨e.2, ?_⟩
    rw [← OrderedMap.get?_congr (Path.compare_eq_iff.2 hq) ix.files]
    exact OrderedMap.get?_of_mem_entries hmem

end Index

namespace Changes

theorem added_iff {old new : Index} {p : Path} :
    (∃ q ∈ (between old new).added, q.components = p.components) ↔
      new.containsPath p = true ∧ old.containsPath p = false := by
  simp only [between, List.mem_filter, Bool.not_eq_true', Index.containsPath_iff]
  constructor
  · rintro ⟨q, ⟨hmem, hold⟩, hq⟩
    exact ⟨⟨q, hmem, hq⟩, by rwa [← Index.containsPath_congr hq]⟩
  · rintro ⟨⟨q, hmem, hq⟩, hold⟩
    exact ⟨q, ⟨hmem, by rwa [Index.containsPath_congr hq]⟩, hq⟩

theorem deleted_iff {old new : Index} {p : Path} :
    (∃ q ∈ (between old new).deleted, q.components = p.components) ↔
      old.containsPath p = true ∧ new.containsPath p = false := by
  simp only [between, List.mem_filter, Bool.not_eq_true', Index.containsPath_iff]
  constructor
  · rintro ⟨q, ⟨hmem, hnew⟩, hq⟩
    exact ⟨⟨q, hmem, hq⟩, by rwa [← Index.containsPath_congr hq]⟩
  · rintro ⟨⟨q, hmem, hq⟩, hnew⟩
    exact ⟨q, ⟨hmem, by rwa [Index.containsPath_congr hq]⟩, hq⟩

/-- A file is modified where it is in both indexes and some symbols have no variants of one
identity. -/
theorem modified_iff {old new : Index} {p : Path} :
    (∃ q ∈ (between old new).modified, q.components = p.components) ↔
      old.containsPath p = true ∧ new.containsPath p = true ∧
        ∃ s, (new.get? p s).map Variant.id ≠ (old.get? p s).map Variant.id := by
  have hsame : ∀ {set before : VariantSet}, new.files.get? p = some set →
      old.files.get? p = some before → (VariantSet.same set before = false ↔
        ∃ s, (new.get? p s).map Variant.id ≠ (old.get? p s).map Variant.id) := by
    intro set before hset hbefore
    rw [← Bool.not_eq_true, VariantSet.same_iff, not_forall]
    simp only [Index.get?, hset, hbefore, Option.bind_some, ne_eq]
  simp only [between, List.mem_map, List.mem_filter, Option.any_eq_true, Bool.not_eq_true',
    Index.containsPath, OrderedMap.contains, Option.isSome_iff_exists]
  constructor
  · rintro ⟨_, ⟨⟨q, set⟩, ⟨hmem, before, hbefore, hne⟩, rfl⟩, hq⟩
    rw [OrderedMap.get?_congr (Path.compare_eq_iff.2 hq)] at hbefore
    have hset := OrderedMap.get?_of_mem_entries hmem
    rw [OrderedMap.get?_congr (Path.compare_eq_iff.2 hq)] at hset
    exact ⟨⟨before, hbefore⟩, ⟨set, hset⟩, (hsame hset hbefore).1 hne⟩
  · rintro ⟨⟨before, hbefore⟩, ⟨set, hset⟩, hne⟩
    obtain ⟨q, hq, hmem⟩ := OrderedMap.mem_entries_of_get? hset
    refine ⟨q, ⟨(q, set), ⟨hmem, before, ?_, (hsame hset hbefore).2 hne⟩, rfl⟩,
      (Path.compare_eq_iff.1 hq).symm⟩
    rw [← OrderedMap.get?_congr hq]
    exact hbefore

/-- Where nothing differs, each path and each set of symbols has variants of one identity. -/
theorem id_eq_of_isEmpty {old new : Index} (h : (between old new).isEmpty = true) (p : Path)
    (s : Symbols) : (new.get? p s).map Variant.id = (old.get? p s).map Variant.id := by
  simp only [isEmpty, Bool.and_eq_true, List.isEmpty_iff] at h
  obtain ⟨⟨hadded, hmodified⟩, hdeleted⟩ := h
  have hpath : new.containsPath p = old.containsPath p := by
    have hnew : ¬ (new.containsPath p = true ∧ old.containsPath p = false) := by
      rw [← added_iff, hadded]
      simp
    have hold : ¬ (old.containsPath p = true ∧ new.containsPath p = false) := by
      rw [← deleted_iff, hdeleted]
      simp
    cases hn : new.containsPath p <;> cases ho : old.containsPath p <;> simp_all
  cases hp : new.containsPath p with
  | false => rw [Index.get?_of_containsPath hp, Index.get?_of_containsPath (hpath ▸ hp)]
  | true =>
      by_contra hne
      have hmod := modified_iff.2 ⟨hpath ▸ hp, hp, s, hne⟩
      simp [hmodified] at hmod

end Changes

end AsmIndex

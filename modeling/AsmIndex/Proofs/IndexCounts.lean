import AsmIndex.Indexer.Settle
import AsmIndex.Proofs.Differences
import AsmIndex.Proofs.WalkFrames

/-!
What indexes hold, counted. Indexes that answer alike under all keys have as many files and
variants as each other and do not differ, as long as no file of theirs is without variants; and a
walk has as many variants in its index as it has taken over and made.
-/

namespace AsmIndex

namespace OrderedMap

variable {κ α : Type} [Ord κ]

theorem lookup_of_lt {k : κ} {l : List (κ × α)} (h : ∀ e ∈ l, compare k e.1 = .lt) :
    lookup k l = none := by
  cases hfound : lookup k l with
  | none => rfl
  | some v =>
      obtain ⟨k', hk, hmem⟩ := mem_of_lookup hfound
      rw [h (k', v) hmem] at hk
      cases hk

variable [Std.TransOrd κ]

/-- A key before the first entry is not there. -/
theorem lookup_of_lt_head {k : κ} {e : κ × α} {l : List (κ × α)}
    (hl : (e :: l).Pairwise fun a b => compare a.1 b.1 = .lt) (h : compare k e.1 = .lt) :
    lookup k (e :: l) = none := by
  refine lookup_of_lt fun x hx => ?_
  rcases List.mem_cons.1 hx with rfl | hx
  · exact h
  · exact Std.TransCmp.lt_trans h ((List.pairwise_cons.1 hl).1 x hx)

/-- Entries in order that answer all lookups alike are the same, up to the spelling of keys. -/
theorem forall₂_of_lookup {l l' : List (κ × α)}
    (hl : l.Pairwise fun a b => compare a.1 b.1 = .lt)
    (hl' : l'.Pairwise fun a b => compare a.1 b.1 = .lt) (h : ∀ k, lookup k l = lookup k l') :
    List.Forall₂ (fun e e' => compare e.1 e'.1 = .eq ∧ e.2 = e'.2) l l' := by
  induction l generalizing l' with
  | nil =>
      cases l' with
      | nil => exact .nil
      | cons e' l' =>
          have hhead := h e'.1
          simp [lookup] at hhead
  | cons e l ih =>
      cases l' with
      | nil =>
          have hhead := h e.1
          simp [lookup] at hhead
      | cons e' l' =>
          obtain ⟨hhead, htail⟩ := List.pairwise_cons.1 hl
          obtain ⟨hhead', htail'⟩ := List.pairwise_cons.1 hl'
          -- The smaller one of two different heads would be found in one list only.
          have hkey : compare e.1 e'.1 = .eq := by
            cases hcompare : compare e.1 e'.1 with
            | eq => rfl
            | lt =>
                have hnone := lookup_of_lt_head hl' hcompare
                rw [← h] at hnone
                simp [lookup] at hnone
            | gt =>
                have hnone := lookup_of_lt_head hl (Std.OrientedCmp.gt_iff_lt.1 hcompare)
                rw [h] at hnone
                simp [lookup] at hnone
          have hvalue : e.2 = e'.2 := by
            have hfound := h e.1
            simpa [lookup, hkey] using hfound
          refine .cons ⟨hkey, hvalue⟩ (ih htail htail' fun k => ?_)
          by_cases hk : compare k e.1 = .eq
          · rw [lookup_congr hk, lookup_of_lt hhead, lookup_congr (Std.TransCmp.eq_trans hk hkey),
              lookup_of_lt hhead']
          · have hk' : compare k e'.1 ≠ .eq := by
              rwa [← Std.TransCmp.congr_right hkey]
            have hrest := h k
            simpa [lookup, hk, hk'] using hrest

theorem size_eq_of_get? {m m' : OrderedMap κ α} (h : ∀ k, m.get? k = m'.get? k) :
    m.size = m'.size :=
  (forall₂_of_lookup m.sorted m'.sorted h).length_eq

theorem values_eq_of_get? {m m' : OrderedMap κ α} (h : ∀ k, m.get? k = m'.get? k) :
    m.values = m'.values := by
  have hvalues : List.Forall₂ (fun e e' => e.2 = e'.2) m.entries m'.entries :=
    (forall₂_of_lookup m.sorted m'.sorted h).imp fun _ _ he => he.2
  rw [values, values, ← List.forall₂_eq_eq_eq, List.forall₂_map_left_iff,
    List.forall₂_map_right_iff]
  exact hvalues

theorem eq_of_get? [Std.LawfulEqOrd κ] {m m' : OrderedMap κ α}
    (h : ∀ k, m.get? k = m'.get? k) : m = m' := by
  obtain ⟨entries, sorted⟩ := m
  obtain ⟨entries', sorted'⟩ := m'
  have hentries : List.Forall₂ _ entries entries' := forall₂_of_lookup sorted sorted' h
  have heq : entries = entries' := by
    refine List.forall₂_eq_eq_eq ▸ hentries.imp fun e e' he => ?_
    exact Prod.ext (Std.compare_eq_iff_eq.1 he.1) he.2
  subst heq
  rfl

/-- What storing a value does to a sum over the values: the value that was under the key goes, and
the new one comes. -/
theorem total_store (g : α → Nat) (k : κ) (v : α) {l : List (κ × α)}
    (hl : l.Pairwise fun a b => compare a.1 b.1 = .lt) :
    total (fun e => g e.2) (store k v l) + (lookup k l).elim 0 g =
      total (fun e => g e.2) l + g v := by
  induction l with
  | nil => simp [store, lookup, total]
  | cons e l ih =>
      have hcons : ∀ (e : κ × α) l, total (fun e => g e.2) (e :: l) =
          g e.2 + total (fun e => g e.2) l := fun _ _ => rfl
      unfold store
      split
      · rename_i hlt
        rw [lookup_of_lt_head hl hlt, hcons, Option.elim_none, Nat.add_zero]
        exact Nat.add_comm _ _
      · rename_i heq
        simp only [lookup, heq, if_true, Option.elim_some, hcons]
        omega
      · rename_i hgt
        have hne : compare k e.1 ≠ .eq := by simp [hgt]
        have hrest := ih (List.pairwise_cons.1 hl).2
        simp only [lookup, if_neg hne, hcons]
        omega

theorem size_insert (m : OrderedMap κ α) (k : κ) (v : α) :
    (m.insert k v).size = if m.contains k then m.size else m.size + 1 := by
  have hlength : ∀ l : List (κ × α), total (fun _ => 1) l = l.length := by
    intro l
    induction l with
    | nil => rfl
    | cons e l ih =>
        change 1 + total (fun _ => 1) l = l.length + 1
        omega
  have hstore := total_store (fun _ => 1) k v m.sorted
  simp only [hlength] at hstore
  simp only [size, insert, contains, get?]
  rcases Option.eq_none_or_eq_some (lookup k m.entries) with hfound | ⟨u, hfound⟩
  · simpa [hfound] using hstore
  · simpa [hfound] using hstore

end OrderedMap

namespace Index

/-- No file of the index is without variants. -/
def Filled (ix : Index) : Prop :=
  ∀ p set, ix.files.get? p = some set → ∃ s v, set.get? s = some v

theorem filled_empty : Filled {} := by
  intro p set hset
  cases hset

theorem Filled.insert {ix : Index} (h : ix.Filled) (p : Path) (s : Symbols) (v : Variant) :
    (ix.insert p s v).Filled := by
  intro q set hset
  simp only [Index.insert, OrderedMap.get?_insert] at hset
  split at hset
  · cases hset
    exact ⟨s, v, by simp [OrderedMap.get?_insert]⟩
  · exact h q set hset

/-- Indexes that answer alike under all keys have the same sets of variants. -/
theorem files_get?_eq {ix ix' : Index} (hix : ix.Filled) (hix' : ix'.Filled)
    (h : ∀ p s, ix.get? p s = ix'.get? p s) (p : Path) :
    ix.files.get? p = ix'.files.get? p := by
  cases hset : ix.files.get? p with
  | none =>
      cases hset' : ix'.files.get? p with
      | none => rfl
      | some set' =>
          obtain ⟨s, v, hv⟩ := hix' p set' hset'
          have hget := h p s
          simp [get?, hset, hset', hv] at hget
  | some set =>
      cases hset' : ix'.files.get? p with
      | none =>
          obtain ⟨s, v, hv⟩ := hix p set hset
          have hget := h p s
          simp [get?, hset, hset', hv] at hget
      | some set' =>
          congr 1
          refine OrderedMap.eq_of_get? fun s => ?_
          have hget := h p s
          simpa [get?, hset, hset'] using hget

theorem size_eq_of_files {ix ix' : Index} (h : ∀ p, ix.files.get? p = ix'.files.get? p) :
    ix.size = ix'.size :=
  OrderedMap.size_eq_of_get? h

theorem variantCount_eq_of_files {ix ix' : Index}
    (h : ∀ p, ix.files.get? p = ix'.files.get? p) : ix.variantCount = ix'.variantCount := by
  simp only [variantCount, variants, OrderedMap.values_eq_of_get? h]

theorem variantCount_eq_total (ix : Index) :
    ix.variantCount = total (fun e => e.2.size) ix.files.entries := by
  have hentries : ∀ l : List (Path × VariantSet),
      ((l.map Prod.snd).flatMap OrderedMap.values).length = total (fun e => e.2.size) l := by
    intro l
    induction l with
    | nil => rfl
    | cons e l ih =>
        rw [List.map_cons, List.flatMap_cons, List.length_append, ih, OrderedMap.values,
          List.length_map]
        rfl
  exact hentries ix.files.entries

/-- A new key comes with one more variant, a known one with none. -/
theorem variantCount_insert (ix : Index) (p : Path) (s : Symbols) (v : Variant) :
    (ix.insert p s v).variantCount =
      if ix.contains p s then ix.variantCount else ix.variantCount + 1 := by
  have hstore : total (fun e => e.2.size) (ix.insert p s v).files.entries +
      (ix.files.get? p).elim 0 OrderedMap.size = total (fun e => e.2.size) ix.files.entries +
        (((ix.files.get? p).getD OrderedMap.empty).insert s v).size :=
    OrderedMap.total_store OrderedMap.size p _ ix.files.sorted
  rw [OrderedMap.size_insert] at hstore
  rw [variantCount_eq_total, variantCount_eq_total]
  rcases Option.eq_none_or_eq_some (ix.files.get? p) with hset | ⟨set, hset⟩
  · have hnew : ix.contains p s = false := by simp [contains, get?, hset]
    simp only [hset, Option.elim_none, Option.getD_none, OrderedMap.contains_empty] at hstore
    rw [hnew]
    exact hstore
  · have hkey : ix.contains p s = set.contains s := by
      simp [contains, get?, hset, OrderedMap.contains]
    simp only [hset, Option.elim_some, Option.getD_some] at hstore
    rw [hkey]
    split at hstore
    · rename_i hold
      rw [if_pos hold]
      omega
    · rename_i hnew
      rw [if_neg hnew]
      omega

end Index

/-- Indexes with the same sets of variants do not differ. -/
theorem Changes.between_eq_empty {old new : Index}
    (h : ∀ p, new.files.get? p = old.files.get? p) : Changes.between old new = {} := by
  have hpath : ∀ p, new.containsPath p = old.containsPath p := fun p => by
    simp only [Index.containsPath, OrderedMap.contains, h]
  have hpaths : ∀ (ix : Index), ∀ p ∈ ix.paths, ix.containsPath p = true := fun ix p hp =>
    Index.containsPath_iff.2 ⟨p, hp, rfl⟩
  simp only [Changes.between, Changes.mk.injEq, List.filter_eq_nil_iff, List.map_eq_nil_iff]
  refine ⟨fun p hp => ?_, ?_, fun p hp => ?_⟩
  · simp [← hpath, hpaths new p hp]
  · rintro ⟨p, set⟩ hmem
    have hset : old.files.get? p = some set := by
      rw [← h]
      exact OrderedMap.get?_of_mem_entries hmem
    have hsame : VariantSet.same set set = true := VariantSet.same_iff.2 fun _ => rfl
    simp [hset, hsame]
  · simp [hpath, hpaths old p hp]

namespace Walk

/-- The walk has counted the variants of its index, and none of its files is without variants. -/
structure Tallied (w : Walk) : Prop where
  counted : w.reused + w.tokenized = w.index.variantCount
  filled : w.index.Filled

section Tallied

variable {plan : Plan} {view : FileView} {cancelled : Bool} {w w' : Walk}

theorem tallied_start (entry : Path) (symbols : Symbols) : (start entry symbols).Tallied :=
  ⟨rfl, Index.filled_empty⟩

/-- A new file is registered and counted. -/
theorem Tallied.register (h : w.Tallied) {p : Path} {s : Symbols} {v : Variant}
    (hnew : w.index.contains p s = false) (hindex : w'.index = w.index.insert p s v)
    (hcount : w'.reused + w'.tokenized = w.reused + w.tokenized + 1) : w'.Tallied where
  counted := by
    rw [hcount, hindex, Index.variantCount_insert, hnew, h.counted]
    rfl
  filled := by
    rw [hindex]
    exact h.filled.insert p s v

theorem move_tallied (h : Move plan view cancelled w w') (hw : w.Coherent plan)
    (htallied : w.Tallied) : w'.Tallied := by
  have hreuse : ∀ {p s v}, w.index.contains p s = false → (w.reuse p s v).Tallied := fun hnew =>
    htallied.register hnew rfl (Nat.add_right_comm _ _ _)
  have hmake : ∀ {p s text time live}, w.index.contains p s = false →
      (w.tokenize plan p s text time live).Tallied := fun hnew =>
    htallied.register hnew rfl (Nat.add_assoc _ _ _).symm
  cases h with
  | reuseLive _ new => exact hreuse new
  | scanLive _ new => exact hmake new
  | reuseStored stage => exact hreuse (hw.new (.inl stage))
  | scanStored stage => exact hmake (hw.new (.inr ⟨_, stage⟩))
  | @replace f stage =>
      -- The key of an open file is in the index already.
      have hold := Index.contains_iff.2 ⟨_, hw.held (f, []) (by simp [opened_follow stage])⟩
      refine ⟨?_, htallied.filled.insert _ _ _⟩
      change w.reused + w.tokenized = Index.variantCount (w.index.insert _ _ _)
      rw [Index.variantCount_insert, hold, htallied.counted]
      rfl
  | back stage inner =>
      simp only [leave, inner]
      exact ⟨htallied.counted, htallied.filled⟩
  | rest => exact htallied
  | _ => exact ⟨htallied.counted, htallied.filled⟩

theorem Proceeds.tallied {entry : Path} {symbols : Symbols}
    (h : Proceeds plan (start entry symbols) w) : w.Tallied :=
  (h.preserves (P := fun w => w.Coherent plan ∧ w.Tallied)
    (fun hmove hw => ⟨move_coherent hmove hw.1, move_tallied hmove hw.1 hw.2⟩)
    ⟨coherent_start plan entry symbols, tallied_start entry symbols⟩).2

end Tallied

end Walk

end AsmIndex

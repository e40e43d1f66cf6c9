/-!
Finite maps kept as lists of entries in strictly increasing order of their keys. Keys that compare
equal count as one key, and a map keeps the one that was stored first.
-/

namespace AsmIndex

/-- A finite map: entries in strictly increasing order of their keys. -/
structure OrderedMap (κ α : Type) [Ord κ] where
  entries : List (κ × α) := []
  sorted : entries.Pairwise (fun a b => compare a.1 b.1 = .lt) := by exact List.Pairwise.nil

namespace OrderedMap

variable {κ α : Type} [Ord κ]

/-- The map without entries. -/
def empty : OrderedMap κ α := {}

instance : EmptyCollection (OrderedMap κ α) := ⟨empty⟩

instance : Inhabited (OrderedMap κ α) := ⟨empty⟩

/-- The value stored under a key that compares equal to `k`. -/
def lookup (k : κ) : List (κ × α) → Option α
  | [] => none
  | (k', v) :: rest => if compare k k' = .eq then some v else lookup k rest

/-- Store `v` under `k`. A key that is there already keeps its place and its spelling. -/
def store (k : κ) (v : α) : List (κ × α) → List (κ × α)
  | [] => [(k, v)]
  | (k', v') :: rest =>
    match compare k k' with
    | .lt => (k, v) :: (k', v') :: rest
    | .eq => (k', v) :: rest
    | .gt => (k', v') :: store k v rest

theorem mem_store_key {k : κ} {v : α} {l : List (κ × α)} {e : κ × α}
    (h : e ∈ store k v l) :
    e.1 = k ∨ ∃ e' ∈ l, e'.1 = e.1 := by
  induction l with
  | nil => simp [store] at h; simp [h]
  | cons hd rest ih =>
    obtain ⟨k', v'⟩ := hd
    unfold store at h
    split at h
    · rcases List.mem_cons.1 h with rfl | h
      · exact .inl rfl
      · exact .inr ⟨e, h, rfl⟩
    · rcases List.mem_cons.1 h with rfl | h
      · exact .inr ⟨(k', v'), by simp, rfl⟩
      · exact .inr ⟨e, by simp [h], rfl⟩
    · rcases List.mem_cons.1 h with rfl | h
      · exact .inr ⟨(k', v'), by simp, rfl⟩
      · rcases ih h with h | ⟨e', he', h⟩
        · exact .inl h
        · exact .inr ⟨e', by simp [he'], h⟩

theorem store_sorted [Std.TransOrd κ] (k : κ) (v : α) {l : List (κ × α)}
    (h : l.Pairwise (fun a b => compare a.1 b.1 = .lt)) :
    (store k v l).Pairwise (fun a b => compare a.1 b.1 = .lt) := by
  induction l with
  | nil => simp [store]
  | cons hd rest ih =>
    obtain ⟨k', v'⟩ := hd
    obtain ⟨hhd, hrest⟩ := List.pairwise_cons.1 h
    unfold store
    split
    · rename_i hlt
      refine List.pairwise_cons.2 ⟨?_, h⟩
      intro e he
      rcases List.mem_cons.1 he with rfl | he
      · exact hlt
      · exact Std.TransCmp.lt_trans hlt (hhd e he)
    · exact List.pairwise_cons.2 ⟨hhd, hrest⟩
    · rename_i hgt
      refine List.pairwise_cons.2 ⟨?_, ih hrest⟩
      intro e he
      rcases mem_store_key he with h1 | ⟨e', he', h1⟩
      · rw [h1]; exact Std.OrientedCmp.gt_iff_lt.1 hgt
      · rw [← h1]; exact hhd e' he'

/-- The value stored under `k`. -/
def get? (m : OrderedMap κ α) (k : κ) : Option α := lookup k m.entries

/-- Whether some value is stored under `k`. -/
def contains (m : OrderedMap κ α) (k : κ) : Bool := (m.get? k).isSome

/-- Store `v` under `k`, in place of the value that was there. -/
def insert [Std.TransOrd κ] (m : OrderedMap κ α) (k : κ) (v : α) : OrderedMap κ α :=
  ⟨store k v m.entries, store_sorted k v m.sorted⟩

/-- Drop the entry of `k`. -/
def erase (m : OrderedMap κ α) (k : κ) : OrderedMap κ α :=
  ⟨m.entries.filter fun e => compare k e.1 != .eq, m.sorted.filter _⟩

/-- The keys, in increasing order. -/
def keys (m : OrderedMap κ α) : List κ := m.entries.map Prod.fst

/-- The values, in increasing order of their keys. -/
def values (m : OrderedMap κ α) : List α := m.entries.map Prod.snd

/-- The number of entries. -/
def size (m : OrderedMap κ α) : Nat := m.entries.length

/-- Whether there is no entry. -/
def isEmpty (m : OrderedMap κ α) : Bool := m.entries.isEmpty

theorem lookup_store [Std.TransOrd κ] (k k' : κ) (v : α) (l : List (κ × α)) :
    lookup k' (store k v l) = if compare k' k = .eq then some v else lookup k' l := by
  induction l with
  | nil => simp [store, lookup]
  | cons hd rest ih =>
    obtain ⟨q, w⟩ := hd
    unfold store
    split
    · simp [lookup]
    · rename_i heq
      have hc : compare k' k = compare k' q := Std.TransCmp.congr_right heq
      by_cases h : compare k' q = .eq <;> simp [lookup, hc, h]
    · rename_i hgt
      by_cases h : compare k' q = .eq
      · have hk : compare k' k ≠ .eq := by
          intro h1
          have h2 : compare k' q = compare k q := Std.TransCmp.congr_left h1
          rw [← h2, h] at hgt; cases hgt
        simp [lookup, h, hk]
      · simp [lookup, h, ih]

@[simp] theorem get?_empty (k : κ) : (empty : OrderedMap κ α).get? k = none := rfl

theorem get?_insert [Std.TransOrd κ] (m : OrderedMap κ α) (k k' : κ) (v : α) :
    (m.insert k v).get? k' = if compare k' k = .eq then some v else m.get? k' :=
  lookup_store k k' v m.entries

end OrderedMap

end AsmIndex

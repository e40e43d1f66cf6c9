import AsmIndex.Proofs.Differences
import Mathlib.Data.Set.Basic

/-!
The algebra of differences of indexes. The three parts of a difference are disjoint, and what they
hold is told by the files of the two indexes and by the identities of their variants alone. The
difference the other way swaps the added and the deleted files, and indexes that do not differ
have the same difference from any third one.
-/

namespace AsmIndex

namespace Path

/-- The location of the path is that of some path in a list. -/
def Among (p : Path) (l : List Path) : Prop := ∃ q ∈ l, q.components = p.components

/-- The locations of paths. -/
def locations (l : List Path) : List (List Component) := l.map components

/-- Locations in increasing order, each of them once. -/
def Ascending (l : List Path) : Prop := (locations l).Pairwise fun x y => compare x y = .lt

theorem Ascending.nodup {l : List Path} (h : Ascending l) : (locations l).Nodup := by
  refine h.imp fun {x y} hlt heq => ?_
  rw [heq] at hlt
  simp at hlt

theorem Ascending.filter {l : List Path} (h : Ascending l) (keep : Path → Bool) :
    Ascending (l.filter keep) :=
  h.sublist (List.filter_sublist.map _)

/-- Lists in increasing order that hold the same locations have the same ones in each place. -/
theorem Ascending.locations_eq {l l' : List Path} (h : Ascending l) (h' : Ascending l')
    (hsame : ∀ p : Path, p.Among l ↔ p.Among l') : locations l = locations l' := by
  have hmem : ∀ cs, cs ∈ locations l ↔ cs ∈ locations l' := by
    have hsub : ∀ {l l' : List Path}, (∀ p : Path, p.Among l → p.Among l') →
        ∀ cs ∈ locations l, cs ∈ locations l' := by
      intro l l' hl cs hcs
      obtain ⟨p, hp, rfl⟩ := List.mem_map.1 hcs
      obtain ⟨q, hq, heq⟩ := hl p ⟨p, hp, rfl⟩
      exact List.mem_map.2 ⟨q, hq, heq⟩
    exact fun cs => ⟨hsub (fun p => (hsame p).1) cs, hsub (fun p => (hsame p).2) cs⟩
  have hperm := (List.perm_ext_iff_of_nodup h.nodup h'.nodup).2 hmem
  refine hperm.eq_of_pairwise (fun x y _ _ hlt hgt => ?_) h h'
  rw [Std.OrientedCmp.gt_iff_lt.2 hlt] at hgt
  cases hgt

end Path

namespace Index

/-- The variants of a file by their symbols and identities. -/
def identities (ix : Index) (p : Path) : Set (Symbols × VariantId) :=
  {x | ∃ v, ix.get? p x.1 = some v ∧ v.id = x.2}

theorem among_paths {ix : Index} {p : Path} : p.Among ix.paths ↔ ix.containsPath p = true :=
  containsPath_iff.symm

theorem not_among_paths {ix : Index} {p : Path} :
    ¬ p.Among ix.paths ↔ ix.containsPath p = false := by
  rw [among_paths, Bool.not_eq_true]

theorem ascending_paths (ix : Index) : Path.Ascending ix.paths := by
  rw [Path.Ascending, Path.locations, paths, OrderedMap.keys, List.map_map, List.pairwise_map]
  exact ix.files.sorted

theorem identities_eq_iff {a b : Index} {p : Path} :
    a.identities p = b.identities p ↔
      ∀ s, (a.get? p s).map Variant.id = (b.get? p s).map Variant.id := by
  constructor
  · intro h s
    apply Option.ext
    intro id
    have hid := congrArg ((s, id) ∈ ·) h
    simpa [identities] using hid
  · intro h
    ext ⟨s, id⟩
    have hs := congrArg (· = some id) (h s)
    simpa [identities] using hs

end Index

theorem VariantSet.same_equivalence :
    Equivalence fun a b : VariantSet => VariantSet.same a b = true where
  refl _ := same_iff.2 fun _ => rfl
  symm h := same_iff.2 fun s => (same_iff.1 h s).symm
  trans h h' := same_iff.2 fun s => (same_iff.1 h s).trans (same_iff.1 h' s)

namespace Changes

section Between

variable (a b : Index)

theorem ascending_added : Path.Ascending (between a b).added := b.ascending_paths.filter _

theorem ascending_deleted : Path.Ascending (between a b).deleted := a.ascending_paths.filter _

theorem ascending_modified : Path.Ascending (between a b).modified := by
  rw [Path.Ascending, Path.locations, between, List.map_map, List.pairwise_map]
  exact b.files.sorted.sublist List.filter_sublist

variable {a b} {p : Path}

theorem among_added : p.Among (between a b).added ↔ ¬ p.Among a.paths ∧ p.Among b.paths := by
  rw [Index.not_among_paths, Index.among_paths, and_comm]
  exact added_iff

theorem among_deleted :
    p.Among (between a b).deleted ↔ p.Among a.paths ∧ ¬ p.Among b.paths := by
  rw [Index.not_among_paths, Index.among_paths]
  exact deleted_iff

theorem among_modified : p.Among (between a b).modified ↔
    p.Among a.paths ∧ p.Among b.paths ∧ a.identities p ≠ b.identities p := by
  rw [Index.among_paths, Index.among_paths, ne_comm, ne_eq, Index.identities_eq_iff, not_forall]
  exact modified_iff

theorem isEmpty_iff : (between a b).isEmpty = true ↔
    ∀ p : Path, (p.Among a.paths ↔ p.Among b.paths) ∧ a.identities p = b.identities p := by
  constructor
  · intro h p
    refine ⟨?_, Index.identities_eq_iff.2 fun s => (id_eq_of_isEmpty h p s).symm⟩
    simp only [isEmpty, Bool.and_eq_true, List.isEmpty_iff] at h
    have hadded := among_added (a := a) (b := b) (p := p)
    have hdeleted := among_deleted (a := a) (b := b) (p := p)
    simp only [h.1.1, h.2, Path.Among, List.not_mem_nil, false_and, exists_false, false_iff]
      at hadded hdeleted
    tauto
  · intro h
    have hnil : ∀ l : List Path, (∀ p : Path, ¬ p.Among l) → l = [] := fun l hl =>
      List.eq_nil_iff_forall_not_mem.2 fun p hp => hl p ⟨p, hp, rfl⟩
    simp only [isEmpty, Bool.and_eq_true, List.isEmpty_iff]
    refine ⟨⟨hnil _ fun p hp => ?_, hnil _ fun p hp => ?_⟩, hnil _ fun p hp => ?_⟩
    · obtain ⟨hold, hnew⟩ := among_added.1 hp
      exact hold ((h p).1.2 hnew)
    · exact (among_modified.1 hp).2.2 (h p).2
    · obtain ⟨hold, hnew⟩ := among_deleted.1 hp
      exact hnew ((h p).1.1 hold)

end Between

/-- Two differences have the same locations in each part. -/
structure Alike (c d : Changes) : Prop where
  added : Path.locations c.added = Path.locations d.added
  modified : Path.locations c.modified = Path.locations d.modified
  deleted : Path.locations c.deleted = Path.locations d.deleted

theorem alike_of_isEmpty {a b : Index} (h : (between a b).isEmpty = true) (c : Index) :
    (between a c).Alike (between b c) := by
  have hsame := isEmpty_iff.1 h
  constructor
  · refine (ascending_added a c).locations_eq (ascending_added b c) fun p => ?_
    rw [among_added, among_added, (hsame p).1]
  · refine (ascending_modified a c).locations_eq (ascending_modified b c) fun p => ?_
    rw [among_modified, among_modified, (hsame p).1, (hsame p).2]
  · refine (ascending_deleted a c).locations_eq (ascending_deleted b c) fun p => ?_
    rw [among_deleted, among_deleted, (hsame p).1]

/-- The difference of two indexes is correct and antisymmetric. Each part lists its files in order
and once; the added files are those of the second index only, the deleted ones those of the first
only, and the modified ones those of both whose variants have other identities under some symbols;
no file is in two parts. A difference is empty where the indexes have the same files with the same
identities. The other way round, added and deleted files are swapped and the modified ones are the
same. To be the same is an equivalence relation of sets of variants, and indexes that do not
differ have the same difference from any third. -/
theorem between_exact (a b c : Index) :
    (Path.Ascending (between a b).added ∧ Path.Ascending (between a b).modified ∧
      Path.Ascending (between a b).deleted) ∧
    (∀ p : Path,
      (p.Among (between a b).added ↔ ¬ p.Among a.paths ∧ p.Among b.paths) ∧
      (p.Among (between a b).deleted ↔ p.Among a.paths ∧ ¬ p.Among b.paths) ∧
      (p.Among (between a b).modified ↔
        p.Among a.paths ∧ p.Among b.paths ∧ a.identities p ≠ b.identities p) ∧
      ¬ (p.Among (between a b).added ∧ p.Among (between a b).modified) ∧
      ¬ (p.Among (between a b).added ∧ p.Among (between a b).deleted) ∧
      ¬ (p.Among (between a b).modified ∧ p.Among (between a b).deleted)) ∧
    ((between a b).isEmpty = true ↔
      ∀ p : Path, (p.Among a.paths ↔ p.Among b.paths) ∧ a.identities p = b.identities p) ∧
    ((between b a).added = (between a b).deleted ∧ (between b a).deleted = (between a b).added ∧
      Path.locations (between b a).modified = Path.locations (between a b).modified) ∧
    Equivalence (fun x y : VariantSet => VariantSet.same x y = true) ∧
    ((between a b).isEmpty = true → (between a c).Alike (between b c)) := by
  refine ⟨⟨ascending_added a b, ascending_modified a b, ascending_deleted a b⟩, fun p => ?_,
    isEmpty_iff, ⟨rfl, rfl, ?_⟩, VariantSet.same_equivalence, fun h => alike_of_isEmpty h c⟩
  · refine ⟨among_added, among_deleted, among_modified, ?_, ?_, ?_⟩
    · rintro ⟨hadded, hmodified⟩
      exact (among_added.1 hadded).1 (among_modified.1 hmodified).1
    · rintro ⟨hadded, hdeleted⟩
      exact (among_added.1 hadded).1 (among_deleted.1 hdeleted).1
    · rintro ⟨hmodified, hdeleted⟩
      exact (among_deleted.1 hdeleted).2 (among_modified.1 hmodified).2.1
  · refine (ascending_modified b a).locations_eq (ascending_modified a b) fun p => ?_
    rw [among_modified, among_modified, ne_comm]
    tauto

end Changes

end AsmIndex

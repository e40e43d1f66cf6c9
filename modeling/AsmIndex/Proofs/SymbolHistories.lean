import AsmIndex.Proofs.SymbolSets
import Mathlib.Data.Set.Insert

/-!
Symbol sets as keys. A set may come about in many ways: from a list of names, by adding and
removing names, by uniting sets. Whatever its history, the set that comes out is determined by its
members, so that two histories with the same members lead to the same key and to the same place in
the order of keys.
-/

namespace AsmIndex.Symbols

/-- A way to come to a symbol set. -/
inductive History
  | listing (names : List String)
  | adding (h : History) (name : String)
  | removing (h : History) (name : String)
  | uniting (h k : History)

namespace History

/-- The set that a history comes to. -/
def result : History → Symbols
  | listing names => ofList names
  | adding h name => h.result.insert name
  | removing h name => h.result.erase name
  | uniting h k => h.result.union k.result

/-- The names that are in after a history, each step read as one on sets. -/
def members : History → Set String
  | listing names => {x | x ∈ names}
  | adding h name => {name} ∪ h.members
  | removing h name => h.members \ {name}
  | uniting h k => h.members ∪ k.members

theorem mem_result (h : History) (x : String) : x ∈ h.result.names ↔ x ∈ h.members := by
  induction h with
  | listing names => exact mem_ofList
  | adding h name ih => simp [result, members, mem_insert, ih]
  | removing h name ih => simp [result, members, mem_erase, ih]
  | uniting h k ihh ihk => simp [result, members, mem_union, ihh, ihk]

theorem result_eq_iff (h k : History) : h.result = k.result ↔ h.members = k.members := by
  constructor
  · intro heq
    ext x
    rw [← mem_result, ← mem_result, heq]
  · intro heq
    apply ext_names
    intro x
    rw [mem_result, mem_result, heq]

/-- Symbol sets are canonical. After any history, the names stand in strictly increasing order,
and they are the members of the history; two histories come to the same set, and to sets that
compare as equal, exactly where their members are the same. Adding, removing and uniting give what
they give where no step is saved. Uniting is associative, commutative and idempotent. Sets are in
the lexicographic order of their names, which is total. -/
theorem histories_canonical (h k l : History) :
    let s := h.result
    let t := k.result
    let u := l.result
    s.names.Pairwise (· < ·) ∧
    (∀ x, s.contains x = true ↔ x ∈ h.members) ∧
    (s = t ↔ h.members = k.members) ∧
    (∀ x, (s.insert x).names = place x s.names ∧
      (s.erase x).names = s.names.filter (· != x)) ∧
    s.union t = ofList (s.names ++ t.names) ∧
    (s.union t).union u = s.union (t.union u) ∧ s.union t = t.union s ∧ s.union s = s ∧
    (compare s t = .lt ↔ List.Lex (· < ·) s.names t.names) ∧
    (compare s t = .eq ↔ h.members = k.members) ∧
    (compare s t = .gt ↔ List.Lex (· < ·) t.names s.names) ∧
    ((compare s t).isLE → (compare t u).isLE → (compare s u).isLE) := by
  intro s t u
  refine ⟨s.sorted, ?_, result_eq_iff h k, ?_, union_eq_ofList s t, union_assoc s t u,
    union_comm s t, union_self s, compare_eq_lt_iff, ?_, ?_, Std.TransCmp.isLE_trans⟩
  · intro x
    rw [← mem_result]
    exact List.contains_iff_mem
  · intro x
    rw [insert_eq_place, erase_eq_filter]
    exact ⟨rfl, rfl⟩
  · rw [Std.compare_eq_iff_eq]
    exact result_eq_iff h k
  · rw [Std.OrientedCmp.gt_iff_lt]
    exact compare_eq_lt_iff

example : ((listing ["B", "A", "B"]).removing "A").result = ((listing []).adding "B").result := by
  decide +kernel

end History

end AsmIndex.Symbols

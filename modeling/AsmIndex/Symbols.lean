/-!
Symbol sets: the preprocessor names that are defined at some point of a source text. A set is kept
as the strictly increasing list of its names, so equal sets are equal values and sets can serve as
keys.
-/

namespace AsmIndex

/-- A finite set of names, in increasing order. -/
structure Symbols where
  names : List String := []
  sorted : names.Pairwise (· < ·) := by exact List.Pairwise.nil
deriving DecidableEq

namespace Symbols

/-- The set without names. -/
def empty : Symbols := {}

instance : EmptyCollection Symbols := ⟨empty⟩

instance : Inhabited Symbols := ⟨empty⟩

/-- Put a name in its place in an increasing list. -/
def place (name : String) : List String → List String
  | [] => [name]
  | n :: rest =>
    if name < n then name :: n :: rest
    else if name = n then n :: rest
    else n :: place name rest

theorem mem_place {name x : String} {l : List String} :
    x ∈ place name l ↔ x = name ∨ x ∈ l := by
  induction l with
  | nil => simp [place]
  | cons n rest ih =>
    unfold place
    split
    · simp
    · split
      · rename_i h; subst h; simp
      · simp [ih, or_left_comm]

theorem place_sorted (name : String) {l : List String} (h : l.Pairwise (· < ·)) :
    (place name l).Pairwise (· < ·) := by
  induction l with
  | nil => simp [place]
  | cons n rest ih =>
    obtain ⟨hn, hrest⟩ := List.pairwise_cons.1 h
    unfold place
    split
    · rename_i hlt
      refine List.pairwise_cons.2 ⟨?_, h⟩
      intro x hx
      rcases List.mem_cons.1 hx with rfl | hx
      · exact hlt
      · exact String.lt_trans hlt (hn x hx)
    · rename_i hge
      split
      · exact h
      · rename_i hne
        refine List.pairwise_cons.2 ⟨?_, ih hrest⟩
        intro x hx
        rcases mem_place.1 hx with rfl | hx
        · rcases Std.lt_trichotomy x n with h1 | h1 | h1
          · exact absurd h1 hge
          · exact absurd h1 hne
          · exact h1
        · exact hn x hx

/-- Whether the set has a name. -/
def contains (s : Symbols) (name : String) : Bool := s.names.contains name

/-- The set together with one name; a set that has the name stays as it is. -/
def insert (s : Symbols) (name : String) : Symbols :=
  if s.contains name then s else ⟨place name s.names, place_sorted name s.sorted⟩

/-- The set without one name; a set that does not have the name stays as it is. -/
def erase (s : Symbols) (name : String) : Symbols :=
  if s.contains name then ⟨s.names.filter (· != name), s.sorted.filter _⟩ else s

/-- The set of the names of a list, in any order and with any repetitions. -/
def ofList (names : List String) : Symbols := names.foldl insert empty

/-- The number of names. -/
def size (s : Symbols) : Nat := s.names.length

/-- Whether there is no name. -/
def isEmpty (s : Symbols) : Bool := s.names.isEmpty

/-- The names of either set; where one set has none, the other set as it is. -/
def union (s t : Symbols) : Symbols :=
  if t.isEmpty then s
  else if s.isEmpty then t
  else ofList (s.names ++ t.names)

/-- The names between braces, separated by commas. -/
def render (s : Symbols) : String := "\x7b" ++ ", ".intercalate s.names ++ "\x7d"

/-- Sets are ordered as their lists of names: at the first difference, and a proper beginning of a
list before the list. -/
instance : Ord Symbols := ⟨compareOn Symbols.names⟩

instance : Std.TransOrd Symbols := inferInstanceAs (Std.TransCmp (compareOn Symbols.names))

instance : Std.LawfulEqOrd Symbols where
  eq_of_compare {a b} h := by
    have h' : a.names = b.names := Std.compare_eq_iff_eq.1 h
    cases a; cases b; cases h'; rfl

theorem mem_insert {s : Symbols} {name x : String} :
    x ∈ (s.insert name).names ↔ x = name ∨ x ∈ s.names := by
  unfold insert
  split
  · rename_i hname
    have hmem : name ∈ s.names := by simpa [contains] using hname
    constructor
    · exact .inr
    · rintro (rfl | hx)
      · exact hmem
      · exact hx
  · exact mem_place

theorem mem_erase {s : Symbols} {name x : String} :
    x ∈ (s.erase name).names ↔ x ∈ s.names ∧ x ≠ name := by
  unfold erase
  split
  · simp
  · rename_i hname
    have hmem : name ∉ s.names := by simpa [contains] using hname
    constructor
    · intro hx
      refine ⟨hx, ?_⟩
      rintro rfl
      exact hmem hx
    · exact And.left

end Symbols

end AsmIndex

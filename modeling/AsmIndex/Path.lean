/-!
Paths. A path is a text; what it denotes is its list of components: an optional root, then names.
Repeated and trailing separators and inner `.` components carry no meaning. Paths are compared by
their components, so one location may have several spellings. In the lexical normal form of a path,
`.` components are dropped and `..` takes away the name before it. A `..` with no name before it is
dropped as well, and a path with nothing left has no normal form.
-/

namespace AsmIndex

/-- A path as it is spelled. -/
structure Path where
  text : String
deriving DecidableEq, Repr, Inhabited

namespace Path

/-- A component of a path. -/
inductive Component
  | root
  | current
  | parent
  | name (text : String)
deriving DecidableEq, Repr

namespace Component

/-- The root comes before `.`, then `..`, then the names. -/
def rank : Component → Nat
  | root => 0
  | current => 1
  | parent => 2
  | name _ => 3

/-- A component as it is spelled; the root is the empty text before the first separator. -/
def text : Component → String
  | root => ""
  | current => "."
  | parent => ".."
  | name text => text

instance : Ord Component := ⟨compareLex (compareOn rank) (compareOn text)⟩

instance : Std.TransOrd Component :=
  inferInstanceAs (Std.TransCmp (compareLex (compareOn rank) (compareOn text)))

instance : Std.LawfulEqOrd Component where
  eq_of_compare {a b} h := by
    have h' : compare a.rank b.rank = .eq ∧ compare a.text b.text = .eq :=
      Ordering.then_eq_eq.1 h
    have hr : a.rank = b.rank := Std.compare_eq_iff_eq.1 h'.1
    have ht : a.text = b.text := Std.compare_eq_iff_eq.1 h'.2
    cases a <;> cases b <;> simp_all [rank, text]

end Component

/-- The pieces between the separators of a text. -/
def segments : List Char → List (List Char)
  | [] => [[]]
  | c :: rest =>
    if c = '/' then [] :: segments rest
    else
      match segments rest with
      | [] => [[c]]
      | s :: more => (c :: s) :: more

/-- Pieces with separators between them. -/
def joinSegments : List (List Char) → List Char
  | [] => []
  | [s] => s
  | s :: more => s ++ '/' :: joinSegments more

/-- The component that a piece stands for inside a path. -/
def component? (s : List Char) : Option Component :=
  if s.isEmpty || s == ['.'] then none
  else if s == ['.', '.'] then some .parent
  else some (.name (String.ofList s))

/-- Whether a path starts at the root. -/
def isAbsolute (p : Path) : Bool := p.text.toList.head? == some '/'

/-- Whether a path starts with a `.` component. -/
def startsHere (p : Path) : Bool := (segments p.text.toList).head? == some ['.']

/-- The components of a path. -/
def components (p : Path) : List Component :=
  let inner := (segments p.text.toList).filterMap component?
  if p.isAbsolute then .root :: inner else if p.startsHere then .current :: inner else inner

instance : Ord Path := ⟨compareOn components⟩

instance : Std.TransOrd Path := inferInstanceAs (Std.TransCmp (compareOn components))

/-- Whether two paths have the same components. -/
def same (p q : Path) : Bool := p.components == q.components

theorem compare_eq_iff {p q : Path} : compare p q = .eq ↔ p.components = q.components := by
  change compare p.components q.components = .eq ↔ _
  exact Std.compare_eq_iff_eq

/-- The path with given components, in its plainest spelling. -/
def ofComponents (cs : List Component) : Path :=
  match cs with
  | [.root] => ⟨"/"⟩
  | cs => ⟨"/".intercalate (cs.map Component.text)⟩

/-- A path taken from the directory `p`: itself if it is absolute. -/
def join (p q : Path) : Path :=
  if q.isAbsolute then q
  else if p.text.isEmpty || p.text.toList.getLast? == some '/' then ⟨p.text ++ q.text⟩
  else ⟨p.text ++ "/" ++ q.text⟩

/-- The directory of a path; the empty path where there is none. -/
def directory (p : Path) : Path := ofComponents p.components.dropLast

/-- The last name of a path. -/
def fileName? (p : Path) : Option String :=
  match p.components.getLast? with
  | some (.name text) => some text
  | _ => none

/-- What follows the last dot of a file name that does not start with that dot. -/
def extension? (p : Path) : Option String :=
  match p.fileName? with
  | none => none
  | some text =>
    let reversed := text.toList.reverse
    match reversed.dropWhile (· != '.') with
    | _ :: _ :: _ => some (String.ofList (reversed.takeWhile (· != '.')).reverse)
    | _ => none

/-- Add a component to the normal form of what precedes it, which is kept from its end. -/
def absorb (held : List Component) : Component → List Component
  | .current => held
  | .parent =>
    match held with
    | .name _ :: rest => rest
    | held => held
  | c => c :: held

/-- The components of the normal form. -/
def normalComponents (p : Path) : List Component := (p.components.foldl absorb []).reverse

/-- The normal form of a path. -/
def normal? (p : Path) : Option Path :=
  match p.normalComponents with
  | [] => none
  | cs => some (ofComponents cs)

/-- The normal form of a path, or the path as it is. -/
def normalized (p : Path) : Path := p.normal?.getD p

end Path

end AsmIndex

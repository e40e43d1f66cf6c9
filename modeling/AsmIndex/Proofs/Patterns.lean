import AsmIndex.Source.Directive

/-!
Patterns over texts, with repetitions that take as much or as little as they can. A pattern
matches the start of a text in some number of ways, and they have an order: of a sequence, the
first part decides before the second; of a repetition, the longest way comes first if it is
greedy, and otherwise the shortest. The match of a pattern is the first of its ways.
-/

namespace AsmIndex.Source

/-- A pattern: a character of a class, any number of them, a part that is captured, two parts in a
row, or the end of the text. -/
inductive Pattern
  | one (p : Char → Bool)
  | many (greedy : Bool) (p : Char → Bool)
  | capture (body : Pattern)
  | seq (first second : Pattern)
  | atEnd

/-- The same piece, `k` bytes further on. -/
def Piece.shift (k : Nat) (piece : Piece) : Piece := { piece with offset := k + piece.offset }

@[simp] theorem Piece.shift_zero : Piece.shift 0 = id := by
  funext piece
  simp [shift]

@[simp] theorem Piece.shift_shift (k l : Nat) (piece : Piece) :
    (piece.shift l).shift k = piece.shift (k + l) := by
  simp [shift, Nat.add_assoc]

/-- A way to match the start of a text: what is taken of it, the captured pieces of that, and what
is left. -/
structure Match where
  taken : List Char
  captures : List Piece
  rest : List Char
deriving DecidableEq

namespace Match

/-- The same way, after some text. -/
def after (before : List Char) (m : Match) : Match :=
  ⟨before ++ m.taken, m.captures.map (Piece.shift (Text.width before)), m.rest⟩

/-- One way, and another one for what it leaves. -/
def append (m m' : Match) : Match :=
  ⟨m.taken ++ m'.taken, m.captures ++ (m'.after m.taken).captures, m'.rest⟩

@[simp] theorem rest_after (before : List Char) (m : Match) : (m.after before).rest = m.rest := rfl

theorem append_after (before : List Char) (m : Match) :
    (m.after before).append = Match.after before ∘ m.append := by
  funext m'
  simp [after, append, Function.comp_def]

@[simp] theorem append_nil_taken (rest : List Char) : append ⟨[], [], rest⟩ = id := by
  funext m
  simp [append, after]

end Match

/-- The ways to take characters of a class from the start of a text, the shortest first. -/
def runs (p : Char → Bool) : List Char → List Match
  | [] => [⟨[], [], []⟩]
  | c :: rest => ⟨[], [], c :: rest⟩ :: if p c then (runs p rest).map (Match.after [c]) else []

theorem mem_runs {p : Char → Bool} {cs : List Char} {m : Match} :
    m ∈ runs p cs ↔ ∃ taken rest, cs = taken ++ rest ∧ (∀ c ∈ taken, p c = true) ∧
      m = ⟨taken, [], rest⟩ := by
  induction cs generalizing m with
  | nil =>
      rw [runs, List.mem_singleton]
      constructor
      · rintro rfl
        exact ⟨[], [], rfl, by simp, rfl⟩
      · rintro ⟨taken, rest, hcs, -, rfl⟩
        obtain ⟨rfl, rfl⟩ := List.append_eq_nil_iff.1 hcs.symm
        rfl
  | cons c cs ih =>
      rw [runs, List.mem_cons]
      constructor
      · rintro (rfl | hm)
        · exact ⟨[], c :: cs, rfl, by simp, rfl⟩
        · split at hm
          · obtain ⟨m', hm', rfl⟩ := List.mem_map.1 hm
            obtain ⟨taken, rest, rfl, htaken, rfl⟩ := ih.1 hm'
            exact ⟨c :: taken, rest, rfl, List.forall_mem_cons.2 ⟨‹_›, htaken⟩, rfl⟩
          · cases hm
      · rintro ⟨taken, rest, hcs, htaken, rfl⟩
        cases taken with
        | nil => exact .inl (by rw [hcs]; rfl)
        | cons d taken =>
            obtain ⟨rfl, rfl⟩ := List.cons.inj hcs
            rw [List.forall_mem_cons] at htaken
            rw [if_pos htaken.1]
            exact .inr (List.mem_map.2 ⟨_, ih.2 ⟨taken, rest, rfl, htaken.2, rfl⟩, rfl⟩)

namespace Pattern

/-- The ways in which a pattern matches the start of a text, the preferred one first. -/
def ways : Pattern → List Char → List Match
  | one _, [] => []
  | one p, c :: rest => if p c then [⟨[c], [], rest⟩] else []
  | many greedy p, cs => if greedy then (runs p cs).reverse else runs p cs
  | capture body, cs => (body.ways cs).map fun m =>
      { m with captures := ⟨0, m.taken⟩ :: m.captures }
  | seq first second, cs => (first.ways cs).flatMap fun m => (second.ways m.rest).map m.append
  | atEnd, cs => if cs.isEmpty then [⟨[], [], []⟩] else []

/-- The match of a pattern at the start of a text. -/
def first? (pattern : Pattern) (cs : List Char) : Option Match := (pattern.ways cs).head?

/-- The pieces that a pattern captures. -/
def captures? (pattern : Pattern) (cs : List Char) : Option (List Piece) :=
  (pattern.first? cs).map Match.captures

variable {p : Char → Bool} {cs : List Char} {m : Match}

theorem mem_one :
    m ∈ (one p).ways cs ↔ ∃ c rest, cs = c :: rest ∧ p c = true ∧
      m = ⟨[c], [], rest⟩ := by
  cases cs with
  | nil => simp [ways]
  | cons c rest =>
      rw [ways]
      constructor
      · intro hm
        split at hm
        · exact ⟨c, rest, rfl, ‹_›, List.mem_singleton.1 hm⟩
        · cases hm
      · rintro ⟨c, rest, hcs, hc, rfl⟩
        obtain ⟨rfl, rfl⟩ := List.cons.inj hcs
        rw [if_pos hc]
        exact List.mem_singleton_self _

theorem mem_many {greedy : Bool} :
    m ∈ (many greedy p).ways cs ↔ ∃ taken rest, cs = taken ++ rest ∧
      (∀ c ∈ taken, p c = true) ∧
      m = ⟨taken, [], rest⟩ := by
  rw [← mem_runs, ways]
  cases greedy <;> simp

theorem mem_capture {body : Pattern} :
    m ∈ (capture body).ways cs ↔
      ∃ m' ∈ body.ways cs, m = { m' with captures := ⟨0, m'.taken⟩ :: m'.captures } := by
  simp [ways, eq_comm]

theorem mem_seq {first second : Pattern} :
    m ∈ (seq first second).ways cs ↔
      ∃ m₁ ∈ first.ways cs, ∃ m₂ ∈ second.ways m₁.rest, m = m₁.append m₂ := by
  simp [ways, eq_comm]

theorem mem_one_seq {next : Pattern} :
    m ∈ (seq (one p) next).ways cs ↔
      ∃ c rest, cs = c :: rest ∧ p c = true ∧ ∃ m' ∈ next.ways rest,
      m = m'.after [c] := by
  simp only [mem_seq, mem_one]
  constructor
  · rintro ⟨_, ⟨c, rest, hcs, hc, rfl⟩, m', hm', rfl⟩
    exact ⟨c, rest, hcs, hc, m', hm', rfl⟩
  · rintro ⟨c, rest, hcs, hc, m', hm', rfl⟩
    exact ⟨_, ⟨c, rest, hcs, hc, rfl⟩, m', hm', rfl⟩

theorem mem_many_seq {greedy : Bool} {next : Pattern} :
    m ∈ (seq (many greedy p) next).ways cs ↔
      ∃ taken rest, cs = taken ++ rest ∧ (∀ c ∈ taken, p c = true) ∧
        ∃ m' ∈ next.ways rest, m = m'.after taken := by
  simp only [mem_seq, mem_many]
  constructor
  · rintro ⟨_, ⟨taken, rest, hcs, htaken, rfl⟩, m', hm', rfl⟩
    exact ⟨taken, rest, hcs, htaken, m', hm', rfl⟩
  · rintro ⟨taken, rest, hcs, htaken, m', hm', rfl⟩
    exact ⟨_, ⟨taken, rest, hcs, htaken, rfl⟩, m', hm', rfl⟩

theorem mem_atEnd : m ∈ atEnd.ways cs ↔ cs = [] ∧ m = ⟨[], [], []⟩ := by
  cases cs <;> simp [ways]

/-- The first part decides, by the first of its ways that the second part can follow. -/
theorem first?_seq (first second : Pattern) (cs : List Char) :
    (seq first second).first? cs =
      (first.ways cs).findSome? fun m => (second.first? m.rest).map m.append := by
  simp only [first?, ways, List.head?_flatMap, List.head?_map]

/-- A greedy repetition takes a character if the rest of the pattern can follow then. -/
theorem first?_greedy (p : Char → Bool) (next : Pattern) (c : Char) (rest : List Char) :
    (seq (many true p) next).first? (c :: rest) =
      if p c then
        (((seq (many true p) next).first? rest).map (Match.after [c])).or (next.first? (c :: rest))
      else next.first? (c :: rest) := by
  rw [first?_seq, first?_seq]
  by_cases hc : p c = true
  · have hways : (many true p).ways (c :: rest) =
        ((many true p).ways rest).map (Match.after [c]) ++ [⟨[], [], c :: rest⟩] := by
      simp [ways, runs, hc]
    rw [hways, if_pos hc, List.findSome?_append, List.findSome?_map, List.map_findSome?]
    simp [Match.append_after, Function.comp_def]
  · have hways : (many true p).ways (c :: rest) = [⟨[], [], c :: rest⟩] := by
      simp [ways, runs, hc]
    simp [hways, hc]

end Pattern

end AsmIndex.Source

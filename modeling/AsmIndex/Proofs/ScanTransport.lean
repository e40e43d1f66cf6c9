import AsmIndex.Proofs.ScanLines

/-!
Scanning the same lines elsewhere: some lines further down, and where a map takes the symbols to
others. The findings move along, provided that the map agrees with the directives of the lines. It
has to commute with the definitions, and the conditions have to hold after it just where they hold
before it.
-/

namespace AsmIndex

/-- The same diagnostic, `k` lines further down. -/
def Diagnostic.shift (k : Nat) (d : Diagnostic) : Diagnostic := { d with line := d.line + k }

/-- The same import, `k` lines further down. -/
def Reference.shift (k : Nat) (r : Reference) : Reference := { r with line := r.line + k }

/-- The same import, where `f` gives the symbols that are defined. -/
def Reference.under (f : Symbols → Symbols) (r : Reference) : Reference :=
  { r with active := f r.active }

namespace Source

/-- The directives on lines without comments, each with the number of its line; the first line has
the number `n`. -/
def directivesFrom (n : Nat) : List (List Char) → List (Nat × Directive)
  | [] => []
  | cs :: rest => ((Directive.ofLine? cs).map (n, ·)).toList ++ directivesFrom (n + 1) rest

/-- The directives of a text outside its comments, each with the number of its line. -/
def directives (text : String) : List (Nat × Directive) :=
  directivesFrom 0 (maskedLines false (Text.lines text.toList))

namespace Directive

/-- The symbol that a directive defines or undefines. -/
def symbol? (d : Directive) : Option String :=
  match d.keyword with
  | .define | .undef => symbolArgument? d.argument
  | _ => none

/-- The condition of a directive. -/
def condition? (d : Directive) : Option (List Char) :=
  match d.keyword with
  | .ifHolds | .elseIf => some d.argument
  | .importIf => (guardedArgument? d.argument).map fun pieces => pieces.1.text
  | _ => none

/-- A map of symbols agrees with a directive. -/
structure Admits (d : Directive) (f : Symbols → Symbols) : Prop where
  insert : ∀ name ∈ d.symbol?, ∀ s, f (s.insert name) = (f s).insert name
  erase : ∀ name ∈ d.symbol?, ∀ s, f (s.erase name) = (f s).erase name
  evaluate : ∀ cs ∈ d.condition?, ∀ s, Condition.evaluate cs (f s) = Condition.evaluate cs s

end Directive

def Token.shift (k : Nat) (t : Token) : Token := { t with line := t.line + k }

def Group.shift (k : Nat) (g : Group) : Group := { g with line := g.line + k }

/-- The same findings, `k` lines further down and where `f` gives the symbols. -/
def Findings.moved (k : Nat) (f : Symbols → Symbols) (x : Findings) : Findings :=
  { tokens := x.tokens.map (Token.shift k)
    references := x.references.map fun r => (r.shift k).under f
    importOnce := x.importOnce
    diagnostics := x.diagnostics.map (Diagnostic.shift k) }

/-- The same state, `k` lines further down and where `f` gives the symbols. -/
def State.moved (k : Nat) (f : Symbols → Symbols) (s : State) : State :=
  { s with symbols := f s.symbols, groups := s.groups.map (Group.shift k) }

section Moving

variable (k : Nat) (f : Symbols → Symbols)

@[simp] theorem Findings.moved_append (x y : Findings) :
    (x ++ y).moved k f = x.moved k f ++ y.moved k f := by
  change (Findings.append x y).moved k f = Findings.append (x.moved k f) (y.moved k f)
  simp [Findings.moved, Findings.append]

theorem codeFrom_shift (line skip column : Nat) (cs : List Char) :
    codeFrom (line + k) skip column cs =
      (codeFrom line skip column cs).map (List.map (Token.shift k))
        (List.map (Diagnostic.shift k)) := by
  induction cs generalizing skip column with
  | nil => rfl
  | cons c rest ih =>
      cases skip with
      | succ skip => exact ih skip _
      | zero =>
          simp only [codeFrom]
          split
          · exact ih 0 _
          · rw [ih]
            cases (Munch.at c rest).closed <;> rfl

namespace State

variable {k f} (s : State) (n : Nat) {d : Directive}

@[simp] theorem groups_moved : (s.moved k f).groups = s.groups.map (Group.shift k) := rfl

@[simp] theorem symbols_moved : (s.moved k f).symbols = f s.symbols := rfl

@[simp] theorem active_moved : (s.moved k f).active = s.active := by
  obtain ⟨symbols, groups, inComment⟩ := s
  cases groups <;> rfl

theorem test_moved (column : Nat) {cs : List Char}
    (h : ∀ s, Condition.evaluate cs (f s) = Condition.evaluate cs s) :
    (s.moved k f).test (n + k) column cs =
      (s.test n column cs).map id (List.map (Diagnostic.shift k)) := by
  unfold test
  rw [symbols_moved, h]
  cases Condition.evaluate cs s.symbols <;> rfl

theorem openGroup_moved
    (h : ∀ s, Condition.evaluate d.argument (f s) = Condition.evaluate d.argument s) :
    (s.moved k f).openGroup (n + k) d = (s.openGroup n d).map (moved k f) (Findings.moved k f) := by
  unfold openGroup
  rw [active_moved, test_moved s n _ h]
  cases s.active <;> rfl

theorem nextBranch_moved
    (h : ∀ s, Condition.evaluate d.argument (f s) = Condition.evaluate d.argument s) :
    (s.moved k f).nextBranch (n + k) d =
      (s.nextBranch n d).map (moved k f) (Findings.moved k f) := by
  unfold nextBranch
  rw [groups_moved]
  cases s.groups with
  | nil => rfl
  | cons g outer =>
      simp only [List.map_cons, test_moved s n _ h]
      obtain ⟨line, outerActive, active, taken, seenElse⟩ := g
      cases seenElse <;> cases outerActive <;> cases taken <;> rfl

theorem lastBranch_moved :
    (s.moved k f).lastBranch (n + k) d =
      (s.lastBranch n d).map (moved k f) (Findings.moved k f) := by
  unfold lastBranch
  rw [groups_moved]
  cases s.groups with
  | nil => rfl
  | cons g outer =>
      obtain ⟨line, outerActive, active, taken, seenElse⟩ := g
      cases seenElse <;> rfl

theorem closeGroup_moved :
    (s.moved k f).closeGroup (n + k) d =
      (s.closeGroup n d).map (moved k f) (Findings.moved k f) := by
  unfold closeGroup
  rw [groups_moved]
  cases s.groups <;> rfl

theorem change_moved {g : Symbols → String → Symbols}
    (h : ∀ name ∈ symbolArgument? d.argument, ∀ s, f (g s name) = g (f s) name) :
    (s.moved k f).change (n + k) d g = (s.change n d g).map (moved k f) (Findings.moved k f) := by
  unfold change
  cases hname : symbolArgument? d.argument with
  | none => rfl
  | some name =>
      have hcommutes := h name hname s.symbols
      simp only [moved, Prod.map, hcommutes]
      rfl

theorem importFile_moved :
    (s.moved k f).importFile (n + k) d = (s.importFile n d).moved k f := by
  unfold importFile
  cases fileArgument? d.argument <;> rfl

theorem importIf_moved
    (h : ∀ pieces ∈ guardedArgument? d.argument, ∀ s,
      Condition.evaluate pieces.1.text (f s) = Condition.evaluate pieces.1.text s) :
    (s.moved k f).importIf (n + k) d = (s.importIf n d).moved k f := by
  unfold importIf
  cases hpieces : guardedArgument? d.argument with
  | none => rfl
  | some pieces =>
      obtain ⟨guard, piece⟩ := pieces
      dsimp only
      rw [test_moved s n _ (h _ hpieces)]
      generalize s.test n (d.argumentColumn + guard.offset) guard.text = result
      obtain ⟨holds, diagnostics⟩ := result
      cases holds <;> simp [reference, Findings.moved, Reference.shift, Reference.under, moved]

theorem directive_moved (h : d.Admits f) :
    (s.moved k f).directive (n + k) d = (s.directive n d).map (moved k f) (Findings.moved k f) := by
  obtain ⟨hinsert, herase, hevaluate⟩ := h
  unfold Directive.symbol? at hinsert herase
  unfold Directive.condition? at hevaluate
  unfold directive
  cases hkeyword : d.keyword with
  | ifHolds =>
      rw [hkeyword] at hevaluate
      exact openGroup_moved s n (hevaluate _ rfl)
  | elseIf =>
      rw [hkeyword] at hevaluate
      exact nextBranch_moved s n (hevaluate _ rfl)
  | otherwise => exact lastBranch_moved s n
  | endIf => exact closeGroup_moved s n
  | define =>
      rw [hkeyword] at hinsert
      simp only [active_moved, change_moved s n hinsert]
      cases s.active <;> rfl
  | undef =>
      rw [hkeyword] at herase
      simp only [active_moved, change_moved s n herase]
      cases s.active <;> rfl
  | importFile =>
      simp only [active_moved, importFile_moved]
      cases s.active <;> rfl
  | importIf =>
      rw [hkeyword] at hevaluate
      have hguard : ∀ pieces ∈ guardedArgument? d.argument, ∀ s,
          Condition.evaluate pieces.1.text (f s) = Condition.evaluate pieces.1.text s :=
        fun pieces hpieces => hevaluate _ (Option.mem_map_of_mem _ hpieces)
      simp only [active_moved, importIf_moved s n hguard]
      cases s.active <;> rfl
  | importOnce =>
      simp only [active_moved]
      cases s.active <;> rfl

theorem codeLine_moved (cs : List Char) :
    (s.moved k f).codeLine (n + k) cs = (s.codeLine n cs).moved k f := by
  unfold codeLine code
  rw [active_moved, codeFrom_shift]
  cases s.active with
  | false => rfl
  | true => cases sourceImport? cs <;> rfl

theorem maskedLine_moved {cs : List Char} (h : ∀ d ∈ Directive.ofLine? cs, d.Admits f) :
    (s.moved k f).maskedLine (n + k) cs =
      (s.maskedLine n cs).map (moved k f) (Findings.moved k f) := by
  unfold maskedLine
  cases hd : Directive.ofLine? cs with
  | none => exact congrArg (Prod.mk _) (codeLine_moved s n cs)
  | some d =>
      dsimp only
      rw [directive_moved s n (h d hd)]
      simp only [Prod.map, Findings.moved_append]
      rfl

/-- Lines do elsewhere what they do here. -/
theorem bareLines_moved {texts : List (List Char)}
    (h : ∀ p ∈ directivesFrom n texts, p.2.Admits f) :
    (s.moved k f).bareLines (n + k) texts =
      (s.bareLines n texts).map (moved k f) (Findings.moved k f) := by
  induction texts generalizing s n with
  | nil => rfl
  | cons cs rest ih =>
      have hfirst : ∀ d ∈ Directive.ofLine? cs, d.Admits f := by
        intro d hd
        exact h (n, d) (by simp [directivesFrom, Option.mem_def.1 hd])
      have hrest : ∀ p ∈ directivesFrom (n + 1) rest, p.2.Admits f := by
        intro p hp
        exact h p (by simp [directivesFrom, hp])
      simp only [bareLines]
      rw [maskedLine_moved s n hfirst, Nat.add_right_comm]
      simp only [Prod.map, ih _ _ hrest, Findings.moved_append]

theorem finish_moved : (s.moved k f).finish = s.finish.moved k f := by
  simp [finish, moved, Findings.moved, Group.shift, Diagnostic.shift, List.map_reverse]

end State

end Moving

theorem scan_of_bareLines {text : String} {incoming : Symbols} {s : State} {f : Findings}
    (h : State.bareLines { symbols := incoming } 0 (maskedLines false (Text.lines text.toList)) =
      (s, f)) : scan text incoming = ⟨f ++ s.finish, s.symbols⟩ := by
  simp only [scan_eq_bareLines, h]

end Source

end AsmIndex

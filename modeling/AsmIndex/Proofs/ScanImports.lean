import AsmIndex.Source.Scan

/-!
The imports of a scan. A line makes at most one import, under the symbols that are defined before
it; so the imports of a text stand on different lines, in order. A symbol that is defined at
an import is one that the text is scanned under, or the name of a `#define` line of the text.
-/

namespace AsmIndex.Source

/-- The name that a line without comments defines, be the line active or not. -/
def definition? (cs : List Char) : Option String :=
  match Directive.ofLine? cs with
  | some d => if d.keyword = .define then symbolArgument? d.argument else none
  | none => none

/-- The names that the `#define` lines among lines give. `inComment` tells whether they start
inside a comment. -/
def definitions (inComment : Bool) : List (List Char) → List String
  | [] => []
  | cs :: rest =>
    (definition? (mask inComment cs).1).toList ++ definitions (mask inComment cs).2 rest

/-- The names of the `#define` lines of a text. -/
def defined (text : String) : List String := definitions false (Text.lines text.toList)

namespace Findings

/-- The findings of one line: at most one import, which stands on that line and has the symbols
`s`. -/
def Single (n : Nat) (s : Symbols) (f : Findings) : Prop :=
  f.references = [] ∨ ∃ column raw, f.references = [{ line := n, column, raw, active := s }]

theorem references_append (f g : Findings) : (f ++ g).references = f.references ++ g.references :=
  rfl

section Single

variable {n : Nat} {s : Symbols} {f g : Findings}

theorem Single.append_left (hf : f.Single n s) (hg : g.references = []) : (f ++ g).Single n s := by
  simpa only [Single, references_append, hg, List.append_nil] using hf

theorem Single.append_right (hf : f.references = []) (hg : g.Single n s) : (f ++ g).Single n s := by
  simpa only [Single, references_append, hf, List.nil_append] using hg

end Single

end Findings

namespace State

theorem single_reference (s : State) (n column : Nat) (piece : Piece) :
    (s.reference n column piece).Single n s.symbols :=
  .inr ⟨_, _, rfl⟩

theorem single_importFile (s : State) (n : Nat) (d : Directive) :
    (s.importFile n d).Single n s.symbols := by
  unfold importFile
  split
  · exact s.single_reference _ _ _
  · exact .inl rfl

theorem single_importIf (s : State) (n : Nat) (d : Directive) :
    (s.importIf n d).Single n s.symbols := by
  unfold importIf
  split
  · rename_i guard piece _
    generalize s.test n (d.argumentColumn + guard.offset) guard.text = result
    obtain ⟨holds, diagnostics⟩ := result
    refine Findings.Single.append_right rfl ?_
    cases holds with
    | true => exact s.single_reference _ _ _
    | false => exact .inl rfl
  · exact .inl rfl

theorem single_nextBranch (s : State) (n : Nat) (d : Directive) :
    (s.nextBranch n d).2.Single n s.symbols := by
  unfold nextBranch
  split
  · exact .inl rfl
  · refine Findings.Single.append_left ?_ rfl
    split <;> exact .inl rfl

theorem single_lastBranch (s : State) (n : Nat) (d : Directive) :
    (s.lastBranch n d).2.Single n s.symbols := by
  unfold lastBranch
  split
  · exact .inl rfl
  · dsimp only
    split <;> exact .inl rfl

theorem single_closeGroup (s : State) (n : Nat) (d : Directive) :
    (s.closeGroup n d).2.Single n s.symbols := by
  unfold closeGroup
  split <;> exact .inl rfl

theorem single_change (s : State) (n : Nat) (d : Directive) (f : Symbols → String → Symbols) :
    (s.change n d f).2.Single n s.symbols := by
  unfold change
  split <;> exact .inl rfl

theorem single_directive (s : State) (n : Nat) (d : Directive) :
    (s.directive n d).2.Single n s.symbols := by
  unfold directive
  split
  · exact .inl rfl
  · exact s.single_nextBranch n d
  · exact s.single_lastBranch n d
  · exact s.single_closeGroup n d
  · split
    · exact .inl rfl
    · split
      · exact s.single_change n d _
      · exact s.single_change n d _
      · exact s.single_importFile n d
      · exact s.single_importIf n d
      · exact .inl rfl
      · exact .inl rfl

theorem single_maskedLine (s : State) (n : Nat) (cs : List Char) :
    (s.maskedLine n cs).2.Single n s.symbols := by
  unfold maskedLine
  split
  · exact Findings.Single.append_right rfl (s.single_directive n _)
  · unfold codeLine
    split
    · exact .inl rfl
    · refine Findings.Single.append_left ?_ rfl
      split
      · exact s.single_reference _ _ _
      · exact .inl rfl

theorem single_line (s : State) (n : Nat) (cs : List Char) : (s.line n cs).2.Single n s.symbols :=
  single_maskedLine { s with inComment := (mask s.inComment cs).2 } n _

theorem inComment_directive (s : State) (n : Nat) (d : Directive) :
    (s.directive n d).1.inComment = s.inComment := by
  unfold directive
  split
  · rfl
  · unfold nextBranch
    split <;> rfl
  · unfold lastBranch
    split <;> rfl
  · unfold closeGroup
    split <;> rfl
  · split
    · rfl
    · split
      · unfold change
        split <;> rfl
      · unfold change
        split <;> rfl
      · rfl
      · rfl
      · rfl
      · rfl

theorem inComment_line (s : State) (n : Nat) (cs : List Char) :
    (s.line n cs).1.inComment = (mask s.inComment cs).2 := by
  unfold line maskedLine
  dsimp only
  split
  · exact inComment_directive _ _ _
  · rfl

/-- A directive adds no symbol but the one that it defines. -/
theorem mem_symbols_directive (s : State) (n : Nat) (d : Directive) {x : String}
    (hx : x ∈ (s.directive n d).1.symbols.names) :
    x ∈ s.symbols.names ∨ d.keyword = .define ∧ symbolArgument? d.argument = some x := by
  unfold directive at hx
  cases hkeyword : d.keyword with
  | ifHolds => exact .inl (by simpa [hkeyword, openGroup] using hx)
  | elseIf =>
      simp only [hkeyword, nextBranch] at hx
      split at hx <;> exact .inl hx
  | otherwise =>
      simp only [hkeyword, lastBranch] at hx
      split at hx <;> exact .inl hx
  | endIf =>
      simp only [hkeyword, closeGroup] at hx
      split at hx <;> exact .inl hx
  | define =>
      simp only [hkeyword, change] at hx
      split at hx
      · exact .inl hx
      · split at hx
        · rename_i name argument
          rcases Symbols.mem_insert.1 hx with rfl | hx
          · exact .inr ⟨rfl, argument⟩
          · exact .inl hx
        · exact .inl hx
  | undef =>
      simp only [hkeyword, change] at hx
      split at hx
      · exact .inl hx
      · split at hx
        · exact .inl (Symbols.mem_erase.1 hx).1
        · exact .inl hx
  | importIf | importOnce | importFile =>
      simp only [hkeyword] at hx
      split at hx <;> exact .inl hx

theorem mem_symbols_line (s : State) (n : Nat) (cs : List Char) {x : String}
    (hx : x ∈ (s.line n cs).1.symbols.names) :
    x ∈ s.symbols.names ∨ definition? (mask s.inComment cs).1 = some x := by
  unfold line maskedLine at hx
  dsimp only at hx
  split at hx
  · rename_i d hd
    rcases mem_symbols_directive _ n d hx with hold | ⟨hkeyword, hargument⟩
    · exact .inl hold
    · exact .inr (by simp [definition?, hd, hkeyword, hargument])
  · exact .inl hx

theorem lines_cons (s : State) (n : Nat) (cs : List Char) (rest : List (List Char)) :
    (s.lines n (cs :: rest)).2.references =
      (s.line n cs).2.references ++ ((s.line n cs).1.lines (n + 1) rest).2.references :=
  rfl

/-- The imports of lines are not resolved, and each stands on one of the lines. -/
theorem references_lines (texts : List (List Char)) (s : State) (n : Nat) {r : Reference}
    (hr : r ∈ (s.lines n texts).2.references) : r.unresolved = r ∧ n ≤ r.line := by
  induction texts generalizing s n with
  | nil => cases hr
  | cons cs rest ih =>
      rw [lines_cons, List.mem_append] at hr
      rcases hr with hr | hr
      · rcases s.single_line n cs with hnone | ⟨column, raw, hone⟩
        · simp [hnone] at hr
        · rw [hone, List.mem_singleton] at hr
          subst hr
          exact ⟨rfl, Nat.le_refl n⟩
      · obtain ⟨hraw, hle⟩ := ih _ (n + 1) hr
        exact ⟨hraw, Nat.le_of_succ_le hle⟩

/-- The lines of imports increase. -/
theorem pairwise_lines (texts : List (List Char)) (s : State) (n : Nat) :
    (s.lines n texts).2.references.Pairwise (fun r r' => r.line < r'.line) := by
  induction texts generalizing s n with
  | nil => exact .nil
  | cons cs rest ih =>
      rw [lines_cons]
      rcases s.single_line n cs with hnone | ⟨column, raw, hone⟩
      · rw [hnone]
        exact ih _ _
      · rw [hone]
        refine List.pairwise_cons.2 ⟨?_, ih _ _⟩
        intro r hr
        exact (references_lines rest _ (n + 1) hr).2

/-- The symbols at an import were defined before the lines, or one of the lines defines them. -/
theorem mem_active_lines (texts : List (List Char)) (s : State) (n : Nat) {r : Reference}
    (hr : r ∈ (s.lines n texts).2.references) {x : String} (hx : x ∈ r.active.names) :
    x ∈ s.symbols.names ∨ x ∈ definitions s.inComment texts := by
  induction texts generalizing s n with
  | nil => cases hr
  | cons cs rest ih =>
      rw [lines_cons, List.mem_append] at hr
      rw [definitions, List.mem_append, Option.mem_toList]
      rcases hr with hr | hr
      · rcases s.single_line n cs with hnone | ⟨column, raw, hone⟩
        · simp [hnone] at hr
        · rw [hone, List.mem_singleton] at hr
          subst hr
          exact .inl hx
      · rcases ih _ (n + 1) hr with hline | hrest
        · rcases s.mem_symbols_line n cs hline with hold | hdefined
          · exact .inl hold
          · exact .inr (.inl hdefined)
        · rw [inComment_line] at hrest
          exact .inr (.inr hrest)

end State

theorem references_scan (text : String) (s : Symbols) :
    (scan text s).findings.references =
      (State.lines { symbols := s } 0 (Text.lines text.toList)).2.references :=
  List.append_nil _

/-- The imports of a scan are not resolved. -/
theorem map_unresolved_scan (text : String) (s : Symbols) :
    (scan text s).findings.references.map Reference.unresolved =
      (scan text s).findings.references := by
  refine (List.map_congr_left fun r hr => ?_).trans (List.map_id' _)
  rw [references_scan] at hr
  exact (State.references_lines _ _ _ hr).1

/-- The imports of a scan stand on different lines, in order. -/
theorem pairwise_line_scan (text : String) (s : Symbols) :
    (scan text s).findings.references.Pairwise (fun r r' => r.line < r'.line) := by
  rw [references_scan]
  exact State.pairwise_lines _ _ _

/-- The symbols at an import of a scan are incoming symbols or names of `#define` lines. -/
theorem mem_active_scan {text : String} {s : Symbols} {r : Reference}
    (hr : r ∈ (scan text s).findings.references) {x : String} (hx : x ∈ r.active.names) :
    x ∈ s.names ∨ x ∈ defined text := by
  rw [references_scan] at hr
  exact State.mem_active_lines _ _ _ hr hx

end AsmIndex.Source

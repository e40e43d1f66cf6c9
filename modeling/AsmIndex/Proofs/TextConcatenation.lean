import AsmIndex.Proofs.ScanTransport

/-!
Texts one after the other. A text of whole lines that leaves neither a group nor a comment open
hands nothing on to the text after it but its symbols: both together are scanned as the first, and
then as the second under the symbols at the end of the first, so many lines further down.
-/

namespace AsmIndex

namespace Text

theorem linesFrom_append (held : List Char) {cs : List Char} (hcs : cs.getLast? = some '\n')
    (ds : List Char) : linesFrom held (cs ++ ds) = linesFrom held cs ++ lines ds := by
  induction cs generalizing held with
  | nil => cases hcs
  | cons c rest ih =>
      rw [List.cons_append, linesFrom, linesFrom]
      cases rest with
      | nil =>
          obtain rfl : c = '\n' := by simpa using hcs
          rfl
      | cons d rest =>
          rw [List.getLast?_cons_cons] at hcs
          split
          · rw [ih [] hcs, List.cons_append]
          · exact ih (c :: held) hcs

/-- The lines of a text that is empty or ends with a line feed, and of a text after it. -/
theorem lines_append {cs : List Char} (hcs : cs = [] ∨ cs.getLast? = some '\n') (ds : List Char) :
    lines (cs ++ ds) = lines cs ++ lines ds := by
  rcases hcs with rfl | hcs
  · rfl
  · exact linesFrom_append [] hcs ds

end Text

namespace Source

/-- Whether a comment is open after lines; `inComment` tells whether they start inside one. -/
def commentAfter (inComment : Bool) : List (List Char) → Bool
  | [] => inComment
  | cs :: rest => commentAfter (mask inComment cs).2 rest

/-- Whether a comment is open at the end of a text. -/
def endsInComment (text : String) : Bool := commentAfter false (Text.lines text.toList)

/-- How many groups are open after a directive, if `opened` are before it. -/
def Keyword.depth (opened : Nat) : Keyword → Nat
  | ifHolds => opened + 1
  | endIf => opened - 1
  | _ => opened

/-- How many of the groups that a text opens it does not close. -/
def unclosedCount (text : String) : Nat :=
  (directives text).foldl (fun opened p => p.2.keyword.depth opened) 0

theorem maskedLines_append (inComment : Bool) (first second : List (List Char)) :
    maskedLines inComment (first ++ second) =
      maskedLines inComment first ++ maskedLines (commentAfter inComment first) second := by
  induction first generalizing inComment with
  | nil => rfl
  | cons cs rest ih => simp only [List.cons_append, maskedLines, commentAfter, ih]

theorem length_maskedLines (inComment : Bool) (texts : List (List Char)) :
    (maskedLines inComment texts).length = texts.length := by
  induction texts generalizing inComment with
  | nil => rfl
  | cons cs rest ih => simp only [maskedLines, List.length_cons, ih]

namespace State

theorem length_groups_directive (s : State) (n : Nat) (d : Directive) :
    (s.directive n d).1.groups.length = d.keyword.depth s.groups.length := by
  unfold directive
  cases d.keyword with
  | ifHolds => rfl
  | elseIf =>
      unfold nextBranch
      cases hgroups : s.groups <;> simp [Keyword.depth, hgroups]
  | otherwise =>
      unfold lastBranch
      cases hgroups : s.groups <;> simp [Keyword.depth, hgroups]
  | endIf =>
      unfold closeGroup
      cases hgroups : s.groups <;> simp [Keyword.depth, hgroups]
  | define | undef =>
      simp only [change]
      cases s.active <;> cases symbolArgument? d.argument <;> rfl
  | importFile | importIf | importOnce => cases s.active <;> rfl

theorem length_groups_bareLines (s : State) (n : Nat) (texts : List (List Char)) :
    (s.bareLines n texts).1.groups.length =
      (directivesFrom n texts).foldl (fun opened p => p.2.keyword.depth opened)
        s.groups.length := by
  induction texts generalizing s n with
  | nil => rfl
  | cons cs rest ih =>
      simp only [bareLines, directivesFrom, ih, List.foldl_append]
      congr 1
      unfold maskedLine
      cases Directive.ofLine? cs with
      | none => rfl
      | some d => exact s.length_groups_directive n d

theorem inComment_bareLines (s : State) (n : Nat) (texts : List (List Char)) :
    (s.bareLines n texts).1.inComment = s.inComment :=
  congrArg (·.1.inComment) (bareLines_withComment s s.inComment n texts)

end State

/-- A text without open groups leaves a state that consists of its symbols. -/
theorem bareLines_of_unclosedCount {text : String} (h : unclosedCount text = 0)
    (incoming : Symbols) :
    State.bareLines { symbols := incoming } 0 (maskedLines false (Text.lines text.toList)) =
      ({ symbols := (scan text incoming).outSymbols }, (scan text incoming).findings) := by
  have hgroups : (State.bareLines { symbols := incoming } 0
      (maskedLines false (Text.lines text.toList))).1.groups = [] :=
    List.length_eq_zero_iff.1 ((State.length_groups_bareLines _ _ _).trans h)
  have hcomment : (State.bareLines { symbols := incoming } 0
      (maskedLines false (Text.lines text.toList))).1.inComment = false :=
    State.inComment_bareLines _ _ _
  simp only [scan_eq_bareLines]
  generalize State.bareLines { symbols := incoming } 0
    (maskedLines false (Text.lines text.toList)) = result at hgroups hcomment ⊢
  obtain ⟨⟨symbols, groups, inComment⟩, findings⟩ := result
  obtain rfl : groups = [] := hgroups
  obtain rfl : inComment = false := hcomment
  simp [State.finish]

/-- A text of whole lines with all its groups and comments closed, and a text after it. -/
theorem scan_append (t₁ t₂ : String) (incoming : Symbols)
    (hlines : t₁ = "" ∨ t₁.toList.getLast? = some '\n') (hgroups : unclosedCount t₁ = 0)
    (hcomment : endsInComment t₁ = false) :
    let first := scan t₁ incoming
    let second := scan t₂ first.outSymbols
    let whole := scan (t₁ ++ t₂) incoming
    let count := (Text.lines t₁.toList).length
    whole.findings.tokens =
        first.findings.tokens ++ second.findings.tokens.map (Token.shift count) ∧
      whole.findings.references =
        first.findings.references ++ second.findings.references.map (Reference.shift count) ∧
      whole.findings.diagnostics =
        first.findings.diagnostics ++ second.findings.diagnostics.map (Diagnostic.shift count) ∧
      whole.outSymbols = second.outSymbols ∧
      whole.findings.importOnce = (first.findings.importOnce || second.findings.importOnce) := by
  intro first second whole count
  have hstart : t₁.toList = [] ∨ t₁.toList.getLast? = some '\n' :=
    hlines.imp (fun h => by simp [h]) id
  have htexts : maskedLines false (Text.lines (t₁ ++ t₂).toList) =
      maskedLines false (Text.lines t₁.toList) ++ maskedLines false (Text.lines t₂.toList) := by
    rw [String.toList_append, Text.lines_append hstart, maskedLines_append]
    congr 2
  have hfirst := bareLines_of_unclosedCount hgroups incoming
  cases hs : State.bareLines { symbols := first.outSymbols } 0
      (maskedLines false (Text.lines t₂.toList)) with
  | mk s f =>
      have hsecond : State.bareLines { symbols := first.outSymbols }
          (0 + (maskedLines false (Text.lines t₁.toList)).length)
          (maskedLines false (Text.lines t₂.toList)) = (s.moved count id, f.moved count id) := by
        rw [length_maskedLines]
        have hmoved :=
          State.bareLines_moved { symbols := first.outSymbols } 0 (k := count) (f := id)
          fun p (_ : p ∈ directives t₂) =>
            ⟨fun _ _ _ => rfl, fun _ _ _ => rfl, fun _ _ _ => rfl⟩
        rwa [hs] at hmoved
      have hwhole : whole = ⟨first.findings ++ (f ++ s.finish).moved count id, s.symbols⟩ := by
        rw [Findings.moved_append, ← State.finish_moved, ← Findings.append_assoc]
        exact scan_of_bareLines (htexts ▸ State.bareLines_append hfirst hsecond)
      have hscan : second = ⟨f ++ s.finish, s.symbols⟩ := scan_of_bareLines hs
      rw [hwhole, hscan]
      exact ⟨rfl, rfl, rfl, rfl, rfl⟩

/-- A stray `#endif`, a comment over two lines that hides an `#if`, a string without its closing
quote, and a group whose second branch defines a symbol. -/
def firstText : String :=
  "#endif\r\nlda /* #if X\n#if X */ \"a\n#if B\n#import\n#else\n#define B\n#endif\n"

/-- An import under the symbol that the first text defines, and a group that stays open. -/
def secondText : String := "#importif B \"b\"\n#elif B\n#if B == C\n.importonce"

theorem scan_append_firstText :
    firstText.toList.getLast? = some '\n' ∧ unclosedCount firstText = 0 ∧
      endsInComment firstText = false ∧
      let first := scan firstText Symbols.empty
      let second := scan secondText first.outSymbols
      let whole := scan (firstText ++ secondText) Symbols.empty
      whole.findings.tokens = first.findings.tokens ++
        second.findings.tokens.map (Token.shift 8) ∧
        whole.findings.references =
          first.findings.references ++ second.findings.references.map (Reference.shift 8) ∧
        whole.findings.diagnostics =
          first.findings.diagnostics ++ second.findings.diagnostics.map (Diagnostic.shift 8) ∧
        whole.outSymbols = second.outSymbols ∧
        whole.findings.importOnce = (first.findings.importOnce || second.findings.importOnce) := by
  have hlines : firstText.toList.getLast? = some '\n' := by decide +kernel
  have hgroups : unclosedCount firstText = 0 := by decide +kernel
  have hcomment : endsInComment firstText = false := by decide +kernel
  have hcount : (Text.lines firstText.toList).length = 8 := by decide +kernel
  have happend := scan_append firstText secondText Symbols.empty (.inr hlines) hgroups hcomment
  rw [hcount] at happend
  exact ⟨hlines, hgroups, hcomment, happend⟩

example : (scan (firstText ++ secondText) Symbols.empty).findings.diagnostics.map Diagnostic.line =
    [0, 2, 9, 10] := by
  decide +kernel

end Source

end AsmIndex

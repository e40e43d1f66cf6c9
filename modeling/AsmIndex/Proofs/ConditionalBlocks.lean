import AsmIndex.Proofs.ScanLines

/-!
Conditional groups as structure. A block is a list of items, each a plain line or a group with its
branches, which are blocks again. A block has a meaning by recursion: items run one after the
other, of a group only the first branch whose condition holds runs, and of what is skipped only
the directive tokens count. Scanning the lines of a block with a stack of open groups comes to the
same.
-/

namespace AsmIndex.Source

/-- Whether a keyword belongs to conditional groups. -/
def Keyword.isConditional : Keyword → Bool
  | ifHolds | elseIf | otherwise | endIf => true
  | _ => false

/-- A line that is no part of the frame of a group. -/
structure PlainLine where
  text : List Char
  plain : ∀ d, Directive.ofLine? text = some d → d.keyword.isConditional = false

/-- A line with a directive of a given keyword. -/
structure MarkedLine (keyword : Keyword) where
  text : List Char
  directive : Directive
  reads : Directive.ofLine? text = some directive
  marked : directive.keyword = keyword

mutual

/-- A plain line, or a group: the line of its `#if`, the block of that branch, and the rest of
it. -/
inductive Item
  | line (l : PlainLine)
  | group (head : MarkedLine .ifHolds) (body : Block) (rest : Branches)

inductive Block
  | nil
  | cons (item : Item) (rest : Block)

/-- What follows a branch of a group: more branches, at most one `#else` as the last, and
`#endif`. -/
inductive Branches
  | endIf (last : MarkedLine .endIf)
  | otherwise (head : MarkedLine .otherwise) (body : Block) (last : MarkedLine .endIf)
  | elseIf (head : MarkedLine .elseIf) (body : Block) (rest : Branches)

end

mutual

def Item.lines : Item → List (List Char)
  | .line l => [l.text]
  | .group head body rest => head.text :: (body.lines ++ rest.lines)

def Block.lines : Block → List (List Char)
  | .nil => []
  | .cons item rest => item.lines ++ rest.lines

def Branches.lines : Branches → List (List Char)
  | .endIf last => [last.text]
  | .otherwise head body last => head.text :: (body.lines ++ [last.text])
  | .elseIf head body rest => head.text :: (body.lines ++ rest.lines)

end

/-- The token of a directive on line `n`. -/
def Directive.token (d : Directive) (n : Nat) : Token :=
  ⟨.directive, "#" ++ d.keyword.name, n, d.column⟩

/-- What lines that are skipped contribute, the first of which has the number `n`. -/
def skipped (n : Nat) : List (List Char) → Findings
  | [] => {}
  | cs :: rest =>
    { tokens := ((Directive.ofLine? cs).map (·.token n)).toList } ++ skipped (n + 1) rest

/-- The truth value of a condition at a line and a column. One that cannot be read is false and
leaves a diagnostic. -/
def judge (s : Symbols) (n column : Nat) (cs : List Char) : Bool × List Diagnostic :=
  match Condition.parse cs with
  | .ok c => (c.holds s, [])
  | .error e =>
    let shown := String.ofList (Text.trim cs)
    (false, [⟨n, column, .error, .condition, s!"invalid condition '{shown}': {e.message}"⟩])

/-- An import of a file name, where the symbols of `s` are defined. -/
def imported (s : Symbols) (n column : Nat) (name : List Char) : Reference :=
  { line := n, column, raw := String.ofList name, active := s }

/-- What a directive does that belongs to no group, its token apart. -/
def plainDirective (s : Symbols) (n : Nat) (d : Directive) : Scan :=
  let refuse (message : String) : Scan :=
    ⟨{ diagnostics := [⟨n, d.column, .error, .directive, message⟩] }, s⟩
  match d.keyword with
  | .define =>
    match symbolArgument? d.argument with
    | some name => ⟨{}, s.insert name⟩
    | none => refuse "#define expects a symbol name"
  | .undef =>
    match symbolArgument? d.argument with
    | some name => ⟨{}, s.erase name⟩
    | none => refuse "#undef expects a symbol name"
  | .importFile =>
    match fileArgument? d.argument with
    | some file =>
        ⟨{ references := [imported s n (d.argumentColumn + file.offset) file.text] }, s⟩
    | none => refuse "#import expects a quoted file name"
  | .importIf =>
    match guardedArgument? d.argument with
    | some (guard, file) =>
      let (holds, diagnostics) := judge s n (d.argumentColumn + guard.offset) guard.text
      let reference := imported s n (d.argumentColumn + file.offset) file.text
      ⟨{ references := if holds then [reference] else [], diagnostics }, s⟩
    | none => refuse "#importif expects a condition and a quoted file name"
  | .importOnce => ⟨{ importOnce := true }, s⟩
  | _ => ⟨{}, s⟩

/-- What a line of code contributes. -/
def plainCode (s : Symbols) (n : Nat) (cs : List Char) : Findings :=
  { tokens := (code n cs).1
    references := ((sourceImport? cs).map fun file => imported s n file.offset file.text).toList
    importOnce := (sourceImport? cs).isNone && isOnceMark cs
    diagnostics := (code n cs).2 }

/-- What a plain line does where the symbols of `s` are defined. -/
def PlainLine.run (s : Symbols) (n : Nat) (l : PlainLine) : Scan :=
  match Directive.ofLine? l.text with
  | some d =>
    let scan := plainDirective s n d
    ⟨{ tokens := [d.token n] } ++ scan.findings, scan.outSymbols⟩
  | none => ⟨plainCode s n l.text, s⟩

/-- What a branch under the condition of `d` and the rest of its group do, given what each of them
does by itself: the branch runs if the condition holds, and otherwise the rest. -/
def choose (s : Symbols) (n : Nat) (d : Directive) (body rest : List (List Char))
    (bodyScan restScan : Scan) : Scan :=
  let (holds, diagnostics) := judge s n d.argumentColumn d.argument
  let head : Findings := { tokens := [d.token n], diagnostics }
  if holds then
    ⟨head ++ bodyScan.findings ++ skipped (n + 1 + body.length) rest, bodyScan.outSymbols⟩
  else ⟨head ++ skipped (n + 1) body ++ restScan.findings, restScan.outSymbols⟩

mutual

/-- What an item does where the symbols of `s` are defined; its first line has the number `n`. -/
def Item.run (s : Symbols) (n : Nat) : Item → Scan
  | .line l => l.run s n
  | .group head body rest =>
    choose s n head.directive body.lines rest.lines (body.run s (n + 1))
      (rest.run s (n + 1 + body.lines.length))

/-- What the items of a block do one after the other. -/
def Block.run (s : Symbols) (n : Nat) : Block → Scan
  | .nil => ⟨{}, s⟩
  | .cons item rest =>
    let first := item.run s n
    let more := rest.run first.outSymbols (n + item.lines.length)
    ⟨first.findings ++ more.findings, more.outSymbols⟩

/-- What the rest of a group does, none of whose branches has run. -/
def Branches.run (s : Symbols) (n : Nat) : Branches → Scan
  | .endIf last => ⟨{ tokens := [last.directive.token n] }, s⟩
  | .otherwise head body last =>
    let scan := body.run s (n + 1)
    ⟨{ tokens := [head.directive.token n] } ++ scan.findings ++
      { tokens := [last.directive.token (n + 1 + body.lines.length)] }, scan.outSymbols⟩
  | .elseIf head body rest =>
    choose s n head.directive body.lines rest.lines (body.run s (n + 1))
      (rest.run s (n + 1 + body.lines.length))

end

theorem skipped_append (n : Nat) (first second : List (List Char)) :
    skipped n (first ++ second) = skipped n first ++ skipped (n + first.length) second := by
  induction first generalizing n with
  | nil => simp [skipped]
  | cons cs rest ih =>
      rw [List.cons_append, skipped, skipped, ih, Findings.append_assoc, List.length_cons,
        Nat.add_assoc n 1, Nat.add_comm 1]

theorem skipped_marked {keyword : Keyword} (l : MarkedLine keyword) (n : Nat)
    (rest : List (List Char)) :
    skipped n (l.text :: rest) = { tokens := [l.directive.token n] } ++ skipped (n + 1) rest := by
  simp [skipped, l.reads]

namespace State

theorem test_eq_judge (s : State) (n column : Nat) (cs : List Char) :
    s.test n column cs = judge s.symbols n column cs := by
  unfold test judge Condition.evaluate
  cases Condition.parse cs <;> rfl

/-- The lines do what `scan` says, and the groups are `groups` after them. -/
def Performs (s : State) (n : Nat) (lines : List (List Char)) (groups : List Group) (scan : Scan) :
    Prop :=
  s.bareLines n lines = ({ s with groups, symbols := scan.outSymbols }, scan.findings)

/-- Lines that are skipped leave the symbols as they are. -/
def skipping (s : State) (n : Nat) (lines : List (List Char)) : Scan :=
  ⟨skipped n lines, s.symbols⟩

theorem Performs.append {s : State} {n : Nat} {first second : List (List Char)}
    {groups groups' : List Group} {a b : Scan} (h₁ : s.Performs n first groups a)
    (h₂ : ({ s with groups, symbols := a.outSymbols } : State).Performs (n + first.length) second
      groups' b) :
    s.Performs n (first ++ second) groups' ⟨a.findings ++ b.findings, b.outSymbols⟩ :=
  bareLines_append h₁ h₂

theorem directive_plain (s : State) (hs : s.active = true) (n : Nat) {d : Directive}
    (hd : d.keyword.isConditional = false) :
    s.directive n d =
      ({ s with symbols := (plainDirective s.symbols n d).outSymbols },
        (plainDirective s.symbols n d).findings) := by
  unfold directive plainDirective
  cases hkeyword : d.keyword with
  | ifHolds | elseIf | otherwise | endIf => simp [hkeyword, Keyword.isConditional] at hd
  | define | undef =>
      simp only [hs, change, hkeyword]
      cases symbolArgument? d.argument <;> rfl
  | importFile =>
      simp only [hs, importFile]
      cases fileArgument? d.argument <;> rfl
  | importIf =>
      simp only [hs, importIf, test_eq_judge]
      cases guardedArgument? d.argument with
      | none => rfl
      | some pieces =>
          obtain ⟨guard, file⟩ := pieces
          dsimp only
          generalize judge s.symbols n (d.argumentColumn + guard.offset) guard.text = result
          obtain ⟨holds, diagnostics⟩ := result
          cases holds <;> simp [reference, imported]
  | importOnce => simp [hs]

theorem performs_line {s : State} {n : Nat} {cs : List Char} {groups : List Group} {scan : Scan}
    (h : s.maskedLine n cs = ({ s with groups, symbols := scan.outSymbols }, scan.findings)) :
    s.Performs n [cs] groups scan := by
  simp only [Performs, bareLines, h, Findings.append_empty]

theorem codeLine_active (s : State) (hs : s.active = true) (n : Nat) (cs : List Char) :
    s.codeLine n cs = plainCode s.symbols n cs := by
  simp only [codeLine, hs, plainCode]
  cases sourceImport? cs <;> simp [reference, imported]

theorem directive_inactive (s : State) (hs : s.active = false) (n : Nat) {d : Directive}
    (hd : d.keyword.isConditional = false) : s.directive n d = (s, {}) := by
  unfold directive
  cases hkeyword : d.keyword with
  | ifHolds | elseIf | otherwise | endIf => simp [hkeyword, Keyword.isConditional] at hd
  | _ => simp [hs]

theorem performs_plain (s : State) (n : Nat) (l : PlainLine) :
    s.Performs n [l.text] s.groups
      (if s.active then l.run s.symbols n else s.skipping n [l.text]) := by
  apply performs_line
  unfold maskedLine PlainLine.run skipping
  cases hd : Directive.ofLine? l.text with
  | none =>
      cases hs : s.active with
      | false => simp [codeLine, hs, skipped, hd]
      | true => simp [s.codeLine_active hs]
  | some d =>
      have hplain := l.plain d hd
      cases hs : s.active with
      | false => simp [s.directive_inactive hs n hplain, skipped, hd, Directive.token]
      | true => simp [s.directive_plain hs n hplain, Directive.token]

theorem performs_ifHolds (s : State) (n : Nat) (l : MarkedLine .ifHolds) {holds : Bool}
    {diagnostics : List Diagnostic}
    (h : (holds, diagnostics) = if s.active then
      judge s.symbols n l.directive.argumentColumn l.directive.argument else (false, [])) :
    s.Performs n [l.text] (⟨n, s.active, holds, holds, false⟩ :: s.groups)
      ⟨{ tokens := [l.directive.token n], diagnostics }, s.symbols⟩ := by
  apply performs_line
  simp only [maskedLine, l.reads, directive, l.marked, openGroup, test_eq_judge, ← h]
  simp [Directive.token, l.marked]

section Branches

variable {s : State} {n : Nat} {g : Group} {outer : List Group}

theorem performs_elseIf (hs : s.groups = g :: outer) (hg : g.seenElse = false)
    (l : MarkedLine .elseIf) {holds : Bool} {diagnostics : List Diagnostic}
    (h : (holds, diagnostics) = if g.outerActive && !g.taken then
      judge s.symbols n l.directive.argumentColumn l.directive.argument else (false, [])) :
    s.Performs n [l.text] ({ g with active := holds, taken := g.taken || holds } :: outer)
      ⟨{ tokens := [l.directive.token n], diagnostics }, s.symbols⟩ := by
  apply performs_line
  simp only [maskedLine, l.reads, directive, l.marked, nextBranch, hs, hg, test_eq_judge, ← h]
  simp [Directive.token, l.marked]

theorem performs_otherwise (hs : s.groups = g :: outer) (hg : g.seenElse = false)
    (l : MarkedLine .otherwise) :
    s.Performs n [l.text]
      ({ g with active := g.outerActive && !g.taken, taken := true, seenElse := true } :: outer)
      ⟨{ tokens := [l.directive.token n] }, s.symbols⟩ := by
  apply performs_line
  simp only [maskedLine, l.reads, directive, l.marked, lastBranch, hs, hg]
  simp [Directive.token, l.marked]

theorem performs_endIf (hs : s.groups = g :: outer) (l : MarkedLine .endIf) :
    s.Performs n [l.text] outer ⟨{ tokens := [l.directive.token n] }, s.symbols⟩ := by
  apply performs_line
  simp only [maskedLine, l.reads, directive, l.marked, closeGroup, hs]
  simp [Directive.token, l.marked]

end Branches

end State

open State

/-- The scanner runs the item where code is active, and skips it elsewhere. -/
def Item.Scanned (i : Item) : Prop :=
  ∀ (s : State) (n : Nat), s.Performs n i.lines s.groups
    (if s.active then i.run s.symbols n else s.skipping n i.lines)

def Block.Scanned (b : Block) : Prop :=
  ∀ (s : State) (n : Nat), s.Performs n b.lines s.groups
    (if s.active then b.run s.symbols n else s.skipping n b.lines)

/-- The scanner runs the rest of a group where code around the group is active and none of its
branches was, and skips it elsewhere; it closes the group. -/
def Branches.Scanned (rest : Branches) : Prop :=
  ∀ (s : State) (n : Nat) (g : Group) (outer : List Group), s.groups = g :: outer →
    g.seenElse = false → s.Performs n rest.lines outer
      (if g.outerActive && !g.taken then rest.run s.symbols n else s.skipping n rest.lines)

/-- A branch with a condition and the rest of its group. The condition is evaluated where
`asked`. -/
theorem performs_choose {s : State} {n : Nat} {keyword : Keyword} (l : MarkedLine keyword)
    {body : Block} {rest : Branches} (hbody : body.Scanned) (hrest : rest.Scanned) (asked : Bool)
    {g : Group} {outer : List Group} {diagnostics : List Diagnostic}
    (hjudge : (g.active, diagnostics) = if asked then
      judge s.symbols n l.directive.argumentColumn l.directive.argument else (false, []))
    (hg : (g.outerActive && !g.taken) = (asked && !g.active)) (helse : g.seenElse = false)
    (hhead : s.Performs n [l.text] (g :: outer)
      ⟨{ tokens := [l.directive.token n], diagnostics }, s.symbols⟩) :
    s.Performs n (l.text :: (body.lines ++ rest.lines)) outer
      (if asked then
        choose s.symbols n l.directive body.lines rest.lines (body.run s.symbols (n + 1))
          (rest.run s.symbols (n + 1 + body.lines.length))
      else s.skipping n (l.text :: (body.lines ++ rest.lines))) := by
  have hnext : n + ([l.text] ++ body.lines).length = n + 1 + body.lines.length := by
    simp only [List.length_append, List.length_singleton]
    omega
  have hall := (hhead.append (hbody _ _)).append (hrest _ _ g outer rfl helse)
  rw [hg, hnext] at hall
  have hlines : [l.text] ++ body.lines ++ rest.lines = l.text :: (body.lines ++ rest.lines) := by
    simp
  rw [hlines] at hall
  cases asked with
  | false =>
      -- Nothing of the group runs from here on.
      obtain ⟨hactive, rfl⟩ := Prod.mk.inj hjudge
      simp only [active, hactive] at hall
      simpa [skipping, skipped_marked, skipped_append, Findings.append_assoc] using hall
  | true =>
      rw [if_pos rfl] at hjudge
      cases hactive : g.active with
      | false =>
          rw [hactive] at hjudge
          simpa [active, hactive, skipping, choose, ← hjudge] using hall
      | true =>
          rw [hactive] at hjudge
          simpa [active, hactive, skipping, choose, ← hjudge] using hall

theorem Item.scanned_line (l : PlainLine) : (Item.line l).Scanned := fun s n => performs_plain s n l

theorem Item.scanned_group (head : MarkedLine .ifHolds) {body : Block} {rest : Branches}
    (hbody : body.Scanned) (hrest : rest.Scanned) : (Item.group head body rest).Scanned := by
  intro s n
  generalize hjudge : (if s.active then judge s.symbols n head.directive.argumentColumn
    head.directive.argument else (false, [])) = result
  obtain ⟨holds, diagnostics⟩ := result
  exact performs_choose head hbody hrest s.active hjudge.symm rfl rfl
    (performs_ifHolds s n head hjudge.symm)

theorem Block.scanned_nil : Block.nil.Scanned := by
  intro s n
  cases hs : s.active <;> simp [Performs, bareLines, Block.lines, Block.run, skipping, skipped]

theorem Block.scanned_cons {item : Item} {rest : Block} (hitem : item.Scanned)
    (hrest : rest.Scanned) : (Block.cons item rest).Scanned := by
  intro s n
  cases hs : s.active with
  | false =>
      have hfirst := hitem s n
      have hmore := hrest s (n + item.lines.length)
      rw [hs] at hfirst hmore
      simpa [Block.lines, skipping, skipped_append] using hfirst.append hmore
  | true =>
      let after : State := { s with symbols := (item.run s.symbols n).outSymbols }
      have hafter : after.active = true := hs
      have hfirst := hitem s n
      have hmore := hrest after (n + item.lines.length)
      rw [if_pos hs] at hfirst
      rw [if_pos hafter] at hmore
      exact hfirst.append hmore

theorem Branches.scanned_endIf (last : MarkedLine .endIf) : (Branches.endIf last).Scanned := by
  intro s n g outer hs _
  have hlast := performs_endIf (n := n) hs last
  split
  · exact hlast
  · simpa [Branches.lines, skipping, skipped_marked, skipped] using hlast

theorem Branches.scanned_otherwise (head : MarkedLine .otherwise) {body : Block}
    (last : MarkedLine .endIf) (hbody : body.Scanned) :
    (Branches.otherwise head body last).Scanned := by
  intro s n g outer hs hg
  have hnext : n + ([head.text] ++ body.lines).length = n + 1 + body.lines.length := by
    simp only [List.length_append, List.length_singleton]
    omega
  have hall := ((performs_otherwise (n := n) hs hg head).append (hbody _ _)).append
    (performs_endIf rfl last)
  rw [hnext] at hall
  cases hrun : g.outerActive && !g.taken with
  | false =>
      simpa [active, hrun, Branches.lines, skipping, skipped_marked, skipped_append, skipped,
        last.reads, Findings.append_assoc] using hall
  | true =>
      simpa [active, hrun, Branches.lines, Branches.run] using hall

theorem Branches.scanned_elseIf (head : MarkedLine .elseIf) {body : Block} {rest : Branches}
    (hbody : body.Scanned) (hrest : rest.Scanned) : (Branches.elseIf head body rest).Scanned := by
  intro s n g outer hs hg
  generalize hjudge : (if g.outerActive && !g.taken then judge s.symbols n
    head.directive.argumentColumn head.directive.argument else (false, [])) = result
  obtain ⟨holds, diagnostics⟩ := result
  have hhead := performs_elseIf hs hg head hjudge.symm
  refine performs_choose head hbody hrest (g.outerActive && !g.taken) hjudge.symm ?_ ?_ hhead
  · simp [Bool.and_assoc]
  · exact hg

mutual

theorem Item.scanned : (i : Item) → i.Scanned
  | .line l => Item.scanned_line l
  | .group head body rest => Item.scanned_group head body.scanned rest.scanned

theorem Block.scanned : (b : Block) → b.Scanned
  | .nil => Block.scanned_nil
  | .cons item rest => Block.scanned_cons item.scanned rest.scanned

theorem Branches.scanned : (rest : Branches) → rest.Scanned
  | .endIf last => Branches.scanned_endIf last
  | .otherwise head body last => Branches.scanned_otherwise head last body.scanned
  | .elseIf head body rest => Branches.scanned_elseIf head body.scanned rest.scanned

end

/-- The complaints that groups are not nested as blocks are. -/
def nestingComplaints : List String :=
  ["#elif without matching #if", "#elif after #else", "#else without matching #if",
    "duplicate #else", "#endif without matching #if", "#if without matching #endif"]

def ConcernsNesting (d : Diagnostic) : Prop :=
  d.code = .directive ∧ d.message ∈ nestingComplaints

def Findings.WellNested (f : Findings) : Prop := ∀ d ∈ f.diagnostics, ¬ ConcernsNesting d

theorem Findings.WellNested.append {f g : Findings} (hf : f.WellNested) (hg : g.WellNested) :
    (f ++ g).WellNested := by
  intro d hd
  rcases List.mem_append.1 hd with hd | hd
  · exact hf d hd
  · exact hg d hd

theorem wellNested_skipped (n : Nat) (lines : List (List Char)) : (skipped n lines).WellNested := by
  induction lines generalizing n with
  | nil => simp [skipped, Findings.WellNested]
  | cons cs rest ih => exact Findings.WellNested.append (by simp [Findings.WellNested]) (ih (n + 1))

theorem eq_of_mem_codeFrom {line skip column : Nat} {cs : List Char} {d : Diagnostic}
    (hd : d ∈ (codeFrom line skip column cs).2) :
    ∃ place, d = ⟨line, place, .error, .token, "unterminated string literal"⟩ := by
  induction cs generalizing skip column with
  | nil => cases hd
  | cons c rest ih =>
      cases skip with
      | succ skip => exact ih hd
      | zero =>
          simp only [codeFrom] at hd
          split at hd
          · exact ih hd
          · dsimp only at hd
            split at hd
            · exact ih hd
            · rcases List.mem_cons.1 hd with rfl | hd
              · exact ⟨column, rfl⟩
              · exact ih hd

theorem message_judge (s : Symbols) (n column : Nat) (cs : List Char) :
    ∀ d ∈ (judge s n column cs).2, d.message ∉ nestingComplaints := by
  unfold judge
  split
  · simp
  · intro d hd hmessage
    -- The wording starts with "invalid", and no complaint about nesting does.
    have hstart : ∀ m ∈ nestingComplaints, m.toList.head? ≠ some 'i' := by decide
    apply hstart _ hmessage
    rw [List.mem_singleton.1 hd]
    simp [String.toList_append, toString]

theorem message_plainDirective (s : Symbols) (n : Nat) (d : Directive) :
    ∀ e ∈ (plainDirective s n d).findings.diagnostics, e.message ∉ nestingComplaints := by
  unfold plainDirective
  dsimp only
  split
  · split <;> simp [nestingComplaints]
  · split <;> simp [nestingComplaints]
  · split <;> simp [nestingComplaints]
  · split
    · exact message_judge _ _ _ _
    · simp [nestingComplaints]
  · simp
  · simp

theorem wellNested_judge (s : Symbols) (n column : Nat) (cs : List Char) (t : List Token)
    (r : List Reference) : Findings.WellNested ⟨t, r, false, (judge s n column cs).2⟩ := by
  intro d hd hnesting
  exact message_judge s n column cs d hd hnesting.2

theorem wellNested_plainDirective (s : Symbols) (n : Nat) (d : Directive) :
    (plainDirective s n d).findings.WellNested := by
  intro e he hnesting
  exact message_plainDirective s n d e he hnesting.2

theorem wellNested_plain (s : Symbols) (n : Nat) (l : PlainLine) :
    (l.run s n).findings.WellNested := by
  unfold PlainLine.run
  split
  · exact Findings.WellNested.append (by simp [Findings.WellNested])
      (wellNested_plainDirective s n _)
  · rintro d hd ⟨hcode, _⟩
    obtain ⟨_, rfl⟩ := eq_of_mem_codeFrom hd
    cases hcode

theorem wellNested_choose {s : Symbols} {n : Nat} {d : Directive} {body rest : List (List Char)}
    {bodyScan restScan : Scan} (hbody : bodyScan.findings.WellNested)
    (hrest : restScan.findings.WellNested) :
    (choose s n d body rest bodyScan restScan).findings.WellNested := by
  unfold choose
  have hhead := wellNested_judge s n d.argumentColumn d.argument [d.token n] []
  dsimp only
  split
  · exact (hhead.append hbody).append (wellNested_skipped _ _)
  · exact (hhead.append (wellNested_skipped _ _)).append hrest

mutual

theorem Item.wellNested (s : Symbols) (n : Nat) : (i : Item) → (i.run s n).findings.WellNested
  | .line l => wellNested_plain s n l
  | .group _ body rest => wellNested_choose (body.wellNested _ _) (rest.wellNested _ _)

theorem Block.wellNested (s : Symbols) (n : Nat) : (b : Block) → (b.run s n).findings.WellNested
  | .nil => by simp [Block.run, Findings.WellNested]
  | .cons item rest => (item.wellNested _ _).append (rest.wellNested _ _)

theorem Branches.wellNested (s : Symbols) (n : Nat) :
    (rest : Branches) → (rest.run s n).findings.WellNested
  | .endIf _ => by simp [Branches.run, Findings.WellNested]
  | .otherwise _ body _ => by
      have hhead (t : Token) : Findings.WellNested { tokens := [t] } := by
        simp [Findings.WellNested]
      exact ((hhead _).append (body.wellNested _ _)).append (hhead _)
  | .elseIf _ body rest => wellNested_choose (body.wellNested _ _) (rest.wellNested _ _)

end

/-- A text whose lines are those of a block without comments is scanned as the block runs, and
nothing in it is badly nested. -/
theorem scan_eq_run_block (b : Block) (incoming : Symbols) (text : String)
    (hlines : Text.lines text.toList = b.lines)
    (hbare : ∀ cs ∈ b.lines, mask false cs = (cs, false)) :
    scan text incoming = b.run incoming 0 ∧
      ∀ d ∈ (scan text incoming).findings.diagnostics, ¬ ConcernsNesting d := by
  have hscan : scan text incoming = b.run incoming 0 := by
    have hrun : bareLines { symbols := incoming } 0 b.lines =
        ({ symbols := (b.run incoming 0).outSymbols }, (b.run incoming 0).findings) :=
      b.scanned { symbols := incoming } 0
    simp [scan_eq_bareLines, hlines, maskedLines_eq_self hbare, hrun, finish]
  refine ⟨hscan, ?_⟩
  rw [hscan]
  exact b.wellNested incoming 0

/-- A group whose first branch is skipped with a malformed condition inside it, whose second
condition is malformed, and whose last branch defines a symbol; an import follows. -/
def sampleBlock : Block :=
  .cons
    (.group ⟨"#if A".toList, ⟨0, .ifHolds, 3, " A".toList⟩, by decide, rfl⟩
      (.cons
        (.group ⟨" #if (".toList, ⟨1, .ifHolds, 4, " (".toList⟩, by decide, rfl⟩ .nil
          (.endIf ⟨" #endif".toList, ⟨1, .endIf, 7, []⟩, by decide, rfl⟩))
        .nil)
      (.elseIf ⟨"#elif B ||".toList, ⟨0, .elseIf, 5, " B ||".toList⟩, by decide, rfl⟩
        (.cons (.line ⟨"lda #1".toList, by decide⟩) .nil)
        (.otherwise ⟨"#else".toList, ⟨0, .otherwise, 5, []⟩, by decide, rfl⟩
          (.cons (.line ⟨"#define B".toList, by decide⟩) .nil)
          ⟨"#endif".toList, ⟨0, .endIf, 6, []⟩, by decide, rfl⟩)))
    (.cons (.line ⟨"#import \"b\"".toList, by decide⟩) .nil)

def sampleText : String :=
  "#if A\n #if (\n #endif\n#elif B ||\r\nlda #1\n#else\n#define B\n#endif\n#import \"b\""

theorem scan_sampleText :
    Text.lines sampleText.toList = sampleBlock.lines ∧
      (∀ cs ∈ sampleBlock.lines, mask false cs = (cs, false)) ∧
      scan sampleText Symbols.empty = sampleBlock.run Symbols.empty 0 ∧
      ∀ d ∈ (scan sampleText Symbols.empty).findings.diagnostics, ¬ ConcernsNesting d := by
  have hlines : Text.lines sampleText.toList = sampleBlock.lines := by decide +kernel
  have hbare : ∀ cs ∈ sampleBlock.lines, mask false cs = (cs, false) := by decide +kernel
  exact ⟨hlines, hbare, scan_eq_run_block sampleBlock Symbols.empty sampleText hlines hbare⟩

example : (scan sampleText Symbols.empty).outSymbols.names = ["B"] ∧
    (scan sampleText Symbols.empty).findings.diagnostics.map Diagnostic.line = [3] ∧
    (scan sampleText Symbols.empty).findings.references.map Reference.line = [8] := by
  decide +kernel

end AsmIndex.Source

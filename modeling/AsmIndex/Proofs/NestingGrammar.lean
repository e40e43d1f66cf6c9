import AsmIndex.Proofs.ConditionalBlocks
import AsmIndex.Proofs.ScanTransport

/-!
Which texts are well nested. The conditional directives of a text have a grammar, and the scanner
complains about their nesting exactly if they do not follow it. Its complaints are those of a
pushdown automaton that reads the conditional directives alone; so they do not depend on the
symbols, nor on which branches are active.
-/

namespace AsmIndex.Source

/-- A conditional directive and its place. -/
structure Mark where
  keyword : Keyword
  line : Nat
  column : Nat
deriving DecidableEq

/-- The conditional ones among directives. -/
def marksOf (ds : List (Nat × Directive)) : List Mark :=
  (ds.filter fun p => p.2.keyword.isConditional).map fun p => ⟨p.2.keyword, p.1, p.2.column⟩

/-- The conditional directives of a text outside its comments. -/
def marks (text : String) : List Mark := marksOf (directives text)

/-- The parts of the grammar: any number of groups, and what follows the first branch of a group. -/
inductive Part
  | groups
  | rest

/-- The sequences of conditional directives that nest: `groups` is `(#if groups rest)*`, and
`rest` is `(#elif groups)* (#else groups)? #endif`. -/
inductive Nests : Part → List Keyword → Prop
  | nil : Nests .groups []
  | group {body rest more} (inner : Nests .groups body) (tail : Nests .rest rest)
      (after : Nests .groups more) : Nests .groups (.ifHolds :: (body ++ (rest ++ more)))
  | endIf : Nests .rest [.endIf]
  | otherwise {body} (inner : Nests .groups body) : Nests .rest (.otherwise :: (body ++ [.endIf]))
  | elseIf {body rest} (inner : Nests .groups body) (tail : Nests .rest rest) :
      Nests .rest (.elseIf :: (body ++ rest))

/-- The diagnostics that complain about nesting. -/
def nesting (ds : List Diagnostic) : List Diagnostic :=
  ds.filter fun d => d.message ∈ nestingComplaints

/-- An open group: the line of its `#if`, and whether its `#else` has come. -/
structure Opening where
  line : Nat
  seenElse : Bool

def Group.opening (g : Group) : Opening := ⟨g.line, g.seenElse⟩

def Mark.complaint (m : Mark) (message : String) : Diagnostic :=
  ⟨m.line, m.column, .error, .directive, message⟩

/-- What a conditional directive does to the open groups, the innermost of which comes first, and
the complaint about it. -/
def nest (opened : List Opening) (m : Mark) : List Opening × List Diagnostic :=
  match m.keyword, opened with
  | .ifHolds, opened => (⟨m.line, false⟩ :: opened, [])
  | .elseIf, [] => ([], [m.complaint "#elif without matching #if"])
  | .elseIf, o :: outer =>
    (o :: outer, if o.seenElse then [m.complaint "#elif after #else"] else [])
  | .otherwise, [] => ([], [m.complaint "#else without matching #if"])
  | .otherwise, o :: outer =>
    ({ o with seenElse := true } :: outer,
      if o.seenElse then [m.complaint "duplicate #else"] else [])
  | .endIf, [] => ([], [m.complaint "#endif without matching #if"])
  | .endIf, _ :: outer => (outer, [])
  | _, opened => (opened, [])

/-- The complaints about conditional directives, to the end of the text. -/
def complaints (opened : List Opening) : List Mark → List Diagnostic
  | [] => opened.reverse.map fun o =>
      ⟨o.line, 0, .error, .directive, "#if without matching #endif"⟩
  | m :: rest => (nest opened m).2 ++ complaints (nest opened m).1 rest

theorem Nests.append {part : Part} {ks ls : List Keyword} (h : Nests part ks)
    (hpart : part = .groups) (hls : Nests .groups ls) : Nests .groups (ks ++ ls) := by
  induction h with
  | nil => exact hls
  | group inner tail after _ _ ih =>
      have hmore := Nests.group inner tail (ih rfl)
      simpa using hmore
  | endIf | otherwise | elseIf => cases hpart

/-- What closes an open group. -/
def Ends : Bool → List Keyword → Prop
  | true, rest => rest = [.endIf]
  | false, rest => Nests .rest rest

/-- What is well nested where groups are open. -/
inductive Closes : List Bool → List Keyword → Prop
  | done {ks} (groups : Nests .groups ks) : Closes [] ks
  | close {seenElse outer body rest more} (inner : Nests .groups body) (tail : Ends seenElse rest)
      (after : Closes outer more) : Closes (seenElse :: outer) (body ++ (rest ++ more))

section Closing

variable {opened outer : List Bool} {ks ls : List Keyword}

theorem Closes.prepend (h : Closes opened ks) (hls : Nests .groups ls) :
    Closes opened (ls ++ ks) := by
  cases h with
  | done groups => exact .done (hls.append rfl groups)
  | close inner tail after =>
      rw [← List.append_assoc]
      exact .close (hls.append rfl inner) tail after

theorem Closes.ifHolds (h : Closes (false :: opened) ks) : Closes opened (.ifHolds :: ks) := by
  cases h with
  | close inner tail after =>
      have hgroup := after.prepend (.group inner tail .nil)
      simpa using hgroup

theorem Closes.elseIf (h : Closes (false :: outer) ks) :
    Closes (false :: outer) (.elseIf :: ks) := by
  cases h with
  | @close _ _ body rest more inner tail after =>
      have hrest : Ends false (.elseIf :: (body ++ rest)) := Nests.elseIf inner tail
      have hbranch := Closes.close .nil hrest after
      simpa using hbranch

theorem Closes.otherwise (h : Closes (true :: outer) ks) :
    Closes (false :: outer) (.otherwise :: ks) := by
  cases h with
  | @close _ _ body rest more inner tail after =>
      obtain rfl : rest = [.endIf] := tail
      have hrest : Ends false (.otherwise :: (body ++ [.endIf])) := Nests.otherwise inner
      have hbranch := Closes.close .nil hrest after
      simpa using hbranch

theorem Closes.endIf (h : Closes outer ks) (seenElse : Bool) :
    Closes (seenElse :: outer) (.endIf :: ks) := by
  have hends : Ends seenElse [.endIf] := by
    cases seenElse with
    | true => rfl
    | false => exact Nests.endIf
  exact .close .nil hends h

end Closing

theorem closes_of_complaints {opened : List Opening} {ms : List Mark}
    (hms : ∀ m ∈ ms, m.keyword.isConditional = true) (h : complaints opened ms = []) :
    Closes (opened.map Opening.seenElse) (ms.map Mark.keyword) := by
  induction ms generalizing opened with
  | nil =>
      obtain rfl : opened = [] := by simpa [complaints] using h
      exact .done .nil
  | cons m rest ih =>
      obtain ⟨hfirst, hrest⟩ := List.append_eq_nil_iff.1 h
      have hmore := ih (fun m hm => hms m (by simp [hm])) hrest
      rw [List.map_cons]
      cases hkeyword : m.keyword with
      | ifHolds =>
          simp only [nest, hkeyword] at hmore
          exact hmore.ifHolds
      | elseIf =>
          cases opened with
          | nil => simp [nest, hkeyword] at hfirst
          | cons o outer =>
              have helse : o.seenElse = false := by simpa [nest, hkeyword] using hfirst
              simp only [nest, hkeyword, List.map_cons, helse] at hmore ⊢
              exact hmore.elseIf
      | otherwise =>
          cases opened with
          | nil => simp [nest, hkeyword] at hfirst
          | cons o outer =>
              have helse : o.seenElse = false := by simpa [nest, hkeyword] using hfirst
              simp only [nest, hkeyword, List.map_cons, helse] at hmore ⊢
              exact hmore.otherwise
      | endIf =>
          cases opened with
          | nil => simp [nest, hkeyword] at hfirst
          | cons o outer =>
              simp only [nest, hkeyword] at hmore
              exact hmore.endIf o.seenElse
      | _ =>
          have hm := hms m (by simp)
          simp [hkeyword, Keyword.isConditional] at hm

/-- Nothing is wrong with the directives where the grammar expects them: `groups` leaves the open
groups as they are, and `rest` closes one. -/
def Silent : Part → List Keyword → Prop
  | .groups, ks => ∀ (opened : List Opening) (ms more : List Mark), ms.map Mark.keyword = ks →
      complaints opened (ms ++ more) = complaints opened more
  | .rest, ks => ∀ (o : Opening) (outer : List Opening) (ms more : List Mark),
      o.seenElse = false → ms.map Mark.keyword = ks →
        complaints (o :: outer) (ms ++ more) = complaints outer more

theorem Nests.silent {part : Part} {ks : List Keyword} (h : Nests part ks) : Silent part ks := by
  induction h with
  | nil =>
      intro opened ms more hms
      rw [List.map_eq_nil_iff.1 hms, List.nil_append]
  | group _ _ _ ihbody ihrest ihmore =>
      intro opened ms more hms
      obtain ⟨m, ms, rfl, hm, hms⟩ := List.map_eq_cons_iff.1 hms
      obtain ⟨body, ms, rfl, hbody, hms⟩ := List.map_eq_append_iff.1 hms
      obtain ⟨rest, after, rfl, hrest, hafter⟩ := List.map_eq_append_iff.1 hms
      have hopen : nest opened m = (⟨m.line, false⟩ :: opened, []) := by simp [nest, hm]
      simp only [List.cons_append, List.append_assoc, complaints, hopen, List.nil_append]
      rw [ihbody _ body _ hbody, ihrest _ _ rest _ rfl hrest, ihmore _ after _ hafter]
  | endIf =>
      intro o outer ms more _ hms
      obtain ⟨m, rfl, hm⟩ := List.map_eq_singleton_iff.1 hms
      simp [complaints, nest, hm]
  | otherwise _ ihbody =>
      intro o outer ms more ho hms
      obtain ⟨m, ms, rfl, hm, hms⟩ := List.map_eq_cons_iff.1 hms
      obtain ⟨body, last, rfl, hbody, hlast⟩ := List.map_eq_append_iff.1 hms
      obtain ⟨l, rfl, hl⟩ := List.map_eq_singleton_iff.1 hlast
      have hnext : nest (o :: outer) m = ({ o with seenElse := true } :: outer, []) := by
        simp [nest, hm, ho]
      simp only [List.cons_append, List.append_assoc, complaints, hnext, List.nil_append]
      rw [ihbody _ body _ hbody]
      simp [complaints, nest, hl]
  | elseIf _ _ ihbody ihrest =>
      intro o outer ms more ho hms
      obtain ⟨m, ms, rfl, hm, hms⟩ := List.map_eq_cons_iff.1 hms
      obtain ⟨body, rest, rfl, hbody, hrest⟩ := List.map_eq_append_iff.1 hms
      have hnext : nest (o :: outer) m = (o :: outer, []) := by simp [nest, hm, ho]
      simp only [List.cons_append, List.append_assoc, complaints, hnext, List.nil_append]
      rw [ihbody _ body _ hbody, ihrest _ _ rest _ ho hrest]

theorem complaints_eq_nil_iff {ms : List Mark}
    (hms : ∀ m ∈ ms, m.keyword.isConditional = true) :
    complaints [] ms = [] ↔ Nests .groups (ms.map Mark.keyword) := by
  constructor
  · intro h
    cases closes_of_complaints hms h with
    | done groups => exact groups
  · intro h
    have hsilent := h.silent [] ms [] rfl
    rwa [List.append_nil] at hsilent

theorem nesting_append (ds es : List Diagnostic) : nesting (ds ++ es) = nesting ds ++ nesting es :=
  List.filter_append ds es

theorem nesting_eq_nil_iff {ds : List Diagnostic} :
    nesting ds = [] ↔ ∀ d ∈ ds, d.message ∉ nestingComplaints := by
  simp [nesting]

theorem nesting_judge (s : Symbols) (n column : Nat) (cs : List Char) :
    nesting (judge s n column cs).2 = [] :=
  nesting_eq_nil_iff.2 (message_judge s n column cs)

theorem nesting_code (n : Nat) (cs : List Char) : nesting (code n cs).2 = [] := by
  rw [nesting_eq_nil_iff]
  intro d hd
  obtain ⟨_, rfl⟩ := eq_of_mem_codeFrom hd
  simp [nestingComplaints]

theorem nesting_plainDirective (s : Symbols) (n : Nat) (d : Directive) :
    nesting (plainDirective s n d).findings.diagnostics = [] :=
  nesting_eq_nil_iff.2 (message_plainDirective s n d)

theorem nesting_complaint (m : Mark) {message : String} (h : message ∈ nestingComplaints) :
    nesting (State.complaint m.line m.column message).diagnostics = [m.complaint message] := by
  simp [State.complaint, nesting, h, Mark.complaint]

theorem nesting_complaint_if (m : Mark) (seenElse : Bool) {message : String}
    (h : message ∈ nestingComplaints) :
    nesting (if seenElse then State.complaint m.line m.column message else {}).diagnostics =
      if seenElse then [m.complaint message] else [] := by
  cases seenElse with
  | false => rfl
  | true => exact nesting_complaint m h

namespace State

variable (s : State) (n : Nat)

/-- The open groups as far as nesting is concerned. -/
def openings : List Opening := s.groups.map Group.opening

theorem directive_nest {d : Directive} (hd : d.keyword.isConditional = true) :
    (s.directive n d).1.openings = (nest s.openings ⟨d.keyword, n, d.column⟩).1 ∧
      nesting (s.directive n d).2.diagnostics =
      (nest s.openings ⟨d.keyword, n, d.column⟩).2 := by
  unfold directive openings
  cases hkeyword : d.keyword with
  | ifHolds =>
      simp only [openGroup, test_eq_judge, nest]
      cases s.active with
      | false => exact ⟨rfl, rfl⟩
      | true => exact ⟨rfl, nesting_judge _ _ _ _⟩
  | elseIf =>
      simp only [nextBranch, test_eq_judge, nest]
      cases hgroups : s.groups with
      | nil => exact ⟨by simp [hgroups], nesting_complaint ⟨_, n, d.column⟩ (by decide)⟩
      | cons g outer =>
          refine ⟨rfl, ?_⟩
          have hcondition : nesting (if g.outerActive && !g.taken then
              judge s.symbols n d.argumentColumn d.argument else (false, [])).2 = [] := by
            split
            · exact nesting_judge _ _ _ _
            · rfl
          rw [Findings.diagnostics_append, nesting_append, hcondition, List.append_nil]
          exact nesting_complaint_if ⟨_, n, d.column⟩ g.seenElse (by decide)
  | otherwise =>
      simp only [lastBranch, nest]
      cases hgroups : s.groups with
      | nil => exact ⟨by simp [hgroups], nesting_complaint ⟨_, n, d.column⟩ (by decide)⟩
      | cons g outer =>
          exact ⟨rfl, nesting_complaint_if ⟨_, n, d.column⟩ g.seenElse (by decide)⟩
  | endIf =>
      simp only [closeGroup, nest]
      cases hgroups : s.groups with
      | nil => exact ⟨by simp [hgroups], nesting_complaint ⟨_, n, d.column⟩ (by decide)⟩
      | cons g outer => exact ⟨rfl, rfl⟩
  | _ => simp [hkeyword, Keyword.isConditional] at hd

theorem directive_unconditional {d : Directive} (hd : d.keyword.isConditional = false) :
    (s.directive n d).1.openings = s.openings ∧ nesting (s.directive n d).2.diagnostics = [] := by
  cases hs : s.active with
  | false =>
      rw [directive_inactive s hs n hd]
      exact ⟨rfl, rfl⟩
  | true =>
      rw [directive_plain s hs n hd]
      exact ⟨rfl, nesting_plainDirective _ _ _⟩

theorem nesting_codeLine (cs : List Char) : nesting (s.codeLine n cs).diagnostics = [] := by
  cases hs : s.active with
  | false => simp [codeLine, hs, nesting]
  | true =>
      rw [codeLine_active s hs]
      exact nesting_code n cs

theorem complaints_maskedLine (cs : List Char) (ms : List Mark) :
    nesting (s.maskedLine n cs).2.diagnostics ++ complaints (s.maskedLine n cs).1.openings ms =
      complaints s.openings (marksOf ((Directive.ofLine? cs).map (n, ·)).toList ++ ms) := by
  unfold maskedLine
  cases Directive.ofLine? cs with
  | none =>
      dsimp only
      rw [nesting_codeLine]
      rfl
  | some d =>
      dsimp only
      rw [Findings.diagnostics_append, List.nil_append]
      cases hd : d.keyword.isConditional with
      | false =>
          obtain ⟨hopenings, hsilent⟩ := s.directive_unconditional n hd
          rw [hopenings, hsilent]
          simp [marksOf, hd]
      | true =>
          obtain ⟨hopenings, hcomplaint⟩ := s.directive_nest n hd
          rw [hopenings, hcomplaint]
          simp [marksOf, hd, complaints]

/-- Lines and the end of the text after them. -/
theorem complaints_bareLines (texts : List (List Char)) :
    nesting ((s.bareLines n texts).2 ++ (s.bareLines n texts).1.finish).diagnostics =
      complaints s.openings (marksOf (directivesFrom n texts)) := by
  induction texts generalizing s n with
  | nil =>
      simp [bareLines, finish, openings, complaints, marksOf, directivesFrom, nesting,
        nestingComplaints, Group.opening, List.map_reverse, Function.comp_def]
  | cons cs rest ih =>
      have hmarks : marksOf (directivesFrom n (cs :: rest)) =
          marksOf ((Directive.ofLine? cs).map (n, ·)).toList ++
            marksOf (directivesFrom (n + 1) rest) := by
        simp [marksOf, directivesFrom]
      rw [hmarks, ← complaints_maskedLine, ← ih, bareLines]
      simp only [Findings.append_assoc, Findings.diagnostics_append, nesting_append]

end State

theorem nesting_scan (text : String) (incoming : Symbols) :
    nesting (scan text incoming).findings.diagnostics = complaints [] (marks text) := by
  rw [scan_eq_bareLines]
  exact State.complaints_bareLines { symbols := incoming } 0 _

theorem isConditional_of_mem_marks {text : String} :
    ∀ m ∈ marks text, m.keyword.isConditional = true := by
  intro m hm
  simp only [marks, marksOf, List.mem_map, List.mem_filter] at hm
  obtain ⟨p, ⟨_, hp⟩, rfl⟩ := hm
  exact hp

/-- A text is free of complaints about nesting exactly if its conditional directives follow the
grammar. Texts with the same conditional directives at the same places have the same complaints
about nesting, whatever their conditions, their other lines and the symbols are. -/
theorem nesting_complaints_exact (text : String) (incoming : Symbols) :
    ((∀ d ∈ (scan text incoming).findings.diagnostics, d.message ∉ nestingComplaints) ↔
        Nests .groups ((marks text).map Mark.keyword)) ∧
      ∀ (other : String) (symbols : Symbols), marks other = marks text →
        nesting (scan other symbols).findings.diagnostics =
          nesting (scan text incoming).findings.diagnostics := by
  constructor
  · rw [← nesting_eq_nil_iff, nesting_scan]
    exact complaints_eq_nil_iff isConditional_of_mem_marks
  · intro other symbols hmarks
    rw [nesting_scan, nesting_scan, hmarks]

/-- An `#elif` and a second `#else` after an `#else`, an `#endif` too many, and a group that stays
open. -/
def tangledText : String :=
  "#if A\n#else\n#elif B\n#else\nlda \"a\n/* #if A */ #endif\n#endif\n#if A"

/-- The same conditional directives under other conditions and among other lines. -/
def retangledText : String :=
  "#if !A\n#else x\n#elif (\n#else\n#define\n            #endif\n#endif // #if\n#if"

theorem nesting_complaints_tangledText :
    marks retangledText = marks tangledText ∧
      nesting (scan retangledText (Symbols.ofList ["B"])).findings.diagnostics =
        nesting (scan tangledText Symbols.empty).findings.diagnostics := by
  have hmarks : marks retangledText = marks tangledText := by decide +kernel
  exact ⟨hmarks, (nesting_complaints_exact tangledText Symbols.empty).2 _ _ hmarks⟩

example : (nesting (scan tangledText Symbols.empty).findings.diagnostics).map
      (fun d => (d.line, d.message)) =
    [(2, "#elif after #else"), (3, "duplicate #else"), (6, "#endif without matching #if"),
      (7, "#if without matching #endif")] := by
  decide +kernel

end AsmIndex.Source

import AsmIndex.Proofs.NestingGrammar
import AsmIndex.Proofs.SourcePlaces

/-!
What may be said of a text. At one place of a text, all scans that say something say the same:
which symbols are defined decides what is said at all, but not what it says. For what is wrong
with the nesting, with a condition or with an argument shows in the text alone; and an import does
not stand where something is wrong.
-/

namespace AsmIndex.Source

/-- What a scan says at a place: that something is wrong, or that a file is imported. -/
inductive Remark
  | note (d : Diagnostic)
  | imports (raw : String)

/-- Everything that was found is what may be said at its place. -/
structure Findings.Fits (remark : Nat → Nat → Option Remark) (f : Findings) : Prop where
  notes : ∀ d ∈ f.diagnostics, remark d.line d.column = some (.note d)
  imports : ∀ r ∈ f.references, remark r.line r.column = some (.imports r.raw)

namespace Findings.Fits

variable {remark remark' : Nat → Nat → Option Remark} {f g : Findings}

theorem of_nil (hnotes : f.diagnostics = []) (himports : f.references = []) : f.Fits remark :=
  ⟨by simp [hnotes], by simp [himports]⟩

theorem append (hf : f.Fits remark) (hg : g.Fits remark) : (f ++ g).Fits remark where
  notes := by
    intro d hd
    rcases List.mem_append.1 hd with hd | hd
    · exact hf.notes d hd
    · exact hg.notes d hd
  imports := by
    intro r hr
    rcases List.mem_append.1 hr with hr | hr
    · exact hf.imports r hr
    · exact hg.imports r hr

theorem imp (hf : f.Fits remark)
    (h : ∀ line column x, remark line column = some x → remark' line column = some x) :
    f.Fits remark' :=
  ⟨fun d hd => h _ _ _ (hf.notes d hd), fun r hr => h _ _ _ (hf.imports r hr)⟩

end Findings.Fits

/-- The file name in the argument of a directive. -/
def Directive.fileName? (d : Directive) : Option Piece :=
  match d.keyword with
  | .importFile => fileArgument? d.argument
  | .importIf => (guardedArgument? d.argument).map Prod.snd
  | _ => none

/-- What may be said of a condition. -/
def conditionRemark (n column : Nat) (cs : List Char) : Option Remark :=
  (judge Symbols.empty n column cs).2.head?.map .note

/-- What may be said of where a conditional directive stands. -/
def nestingRemark (opened : List Opening) (m : Mark) : Option Remark :=
  (nest opened m).2.head?.map .note

/-- What may be said of a directive that belongs to no group: that its argument is wrong, or what it
imports. -/
def plainRemark (n : Nat) (d : Directive) : Option Remark :=
  ((plainDirective Symbols.empty n d).findings.diagnostics.head?.map .note).or
    (d.fileName?.map fun file => .imports (String.ofList file.text))

/-- The complaint about a group that stays open. -/
def unclosed (n : Nat) : Diagnostic := ⟨n, 0, .error, .directive, "#if without matching #endif"⟩

/-- What may be said at a column of a directive line. -/
def directiveRemark (opened : List Opening) (n : Nat) (d : Directive) (column : Nat) :
    Option Remark :=
  match d.keyword with
  | .ifHolds =>
    if column = 0 then some (.note (unclosed n)) else conditionRemark n d.argumentColumn d.argument
  | .elseIf =>
    if column = d.column then nestingRemark opened ⟨.elseIf, n, d.column⟩
    else conditionRemark n d.argumentColumn d.argument
  | .otherwise => nestingRemark opened ⟨.otherwise, n, d.column⟩
  | .endIf => nestingRemark opened ⟨.endIf, n, d.column⟩
  | _ => plainRemark n d

/-- What may be said at a column of a line of code. -/
def codeRemark (n : Nat) (cs : List Char) (column : Nat) : Option Remark :=
  (((code n cs).2.find? (·.column = column)).map .note).or
    ((sourceImport? cs).map fun file => .imports (String.ofList file.text))

/-- What may be said at a column of a line without comments, where groups are open. -/
def lineRemark (opened : List Opening) (n : Nat) (cs : List Char) (column : Nat) : Option Remark :=
  match Directive.ofLine? cs with
  | some d => directiveRemark opened n d column
  | none => codeRemark n cs column

/-- The open groups after a line. -/
def nestLine (opened : List Opening) (n : Nat) (cs : List Char) : List Opening :=
  match Directive.ofLine? cs with
  | some d => (nest opened ⟨d.keyword, n, d.column⟩).1
  | none => opened

/-- What may be said at a place of lines, the first of which has the number `n`. -/
def remarkFrom (opened : List Opening) (n : Nat) :
    List (List Char) → Nat → Nat → Option Remark
  | [], _, _ => none
  | cs :: rest, line, column =>
    if line = n then lineRemark opened n cs column
    else remarkFrom (nestLine opened n cs) (n + 1) rest line column

/-- What may be said at a place of a text. -/
def remark (text : String) : Nat → Nat → Option Remark :=
  remarkFrom [] 0 (maskedLines false (Text.lines text.toList))

section Line

variable {n : Nat} {d : Directive} {e : Diagnostic} {cs : List Char}

theorem judge_diagnostics (s t : Symbols) (n column : Nat) (cs : List Char) :
    (judge s n column cs).2 = (judge t n column cs).2 := by
  unfold judge
  split <;> rfl

theorem conditionRemark_of_mem {symbols : Symbols} {column : Nat}
    (he : e ∈ (judge symbols n column cs).2) :
    e.line = n ∧ e.column = column ∧ conditionRemark n column cs = some (.note e) := by
  rw [judge_diagnostics symbols Symbols.empty] at he
  unfold conditionRemark
  unfold judge at he ⊢
  split at he
  · cases he
  · obtain rfl := List.mem_singleton.1 he
    exact ⟨rfl, rfl, rfl⟩

theorem Directive.column_lt (h : Directive.ofLine? cs = some d) : d.column < d.argumentColumn := by
  unfold Directive.ofLine? at h
  dsimp only at h
  split at h
  · obtain ⟨keyword, -, rfl⟩ := Option.map_eq_some_iff.1 h
    dsimp only
    omega
  · cases h

/-- What may be said on the line `n`. -/
def within (n : Nat) (remark : Nat → Option Remark) (line column : Nat) : Option Remark :=
  if line = n then remark column else none

theorem fits_note {remark : Nat → Option Remark} (hline : e.line = n)
    (h : remark e.column = some (.note e)) :
    Findings.Fits (within n remark) { diagnostics := [e] } where
  notes := by
    intro e' he'
    obtain rfl := List.mem_singleton.1 he'
    simp [within, hline, h]
  imports := by simp

theorem fits_condition {remark : Nat → Option Remark} {symbols : Symbols} {column : Nat}
    (h : remark column = conditionRemark n column cs) :
    Findings.Fits (within n remark) { diagnostics := (judge symbols n column cs).2 } where
  notes := by
    intro e he
    obtain ⟨rfl, rfl, hremark⟩ := conditionRemark_of_mem he
    simp [within, h, hremark]
  imports := by simp

theorem fits_reference (symbols : Symbols) (column : Nat) (name : List Char)
    {remark : Nat → Option Remark} (h : remark column = some (.imports (String.ofList name))) :
    Findings.Fits (within n remark) { references := [imported symbols n column name] } where
  notes := by simp
  imports := by
    intro r hr
    obtain rfl := List.mem_singleton.1 hr
    simp [within, imported, h]

theorem fits_plainDirective (symbols : Symbols) (n : Nat) (d : Directive) :
    (plainDirective symbols n d).findings.Fits (within n fun _ => plainRemark n d) := by
  unfold plainRemark Directive.fileName?
  unfold plainDirective
  cases d.keyword with
  | define | undef =>
      dsimp only
      cases symbolArgument? d.argument with
      | some name => exact .of_nil rfl rfl
      | none => exact fits_note rfl rfl
  | importFile =>
      dsimp only
      cases fileArgument? d.argument with
      | some file => exact fits_reference _ _ _ rfl
      | none => exact fits_note rfl rfl
  | importIf =>
      dsimp only
      cases guardedArgument? d.argument with
      | none => exact fits_note rfl rfl
      | some pieces =>
          obtain ⟨guard, file⟩ := pieces
          dsimp only
          -- Where the condition can be read, nothing is wrong; where it cannot, nothing is
          -- imported.
          unfold judge
          cases Condition.parse guard.text with
          | error e => exact fits_note rfl rfl
          | ok c =>
              dsimp only
              split
              · exact fits_reference _ _ _ rfl
              · exact .of_nil rfl rfl
  | _ => exact .of_nil rfl rfl

/-- A literal that is not closed is a token. -/
theorem exists_token_of_mem {n skip column : Nat} {cs : List Char}
    (he : e ∈ (codeFrom n skip column cs).2) :
    ∃ t ∈ (codeFrom n skip column cs).1, t.column = e.column := by
  induction cs generalizing skip column with
  | nil => cases he
  | cons c rest ih =>
      cases skip with
      | succ skip => exact ih he
      | zero =>
          simp only [codeFrom] at he ⊢
          split at he
          · rename_i hblank
            rw [if_pos hblank]
            exact ih he
          · rename_i hblank
            rw [if_neg hblank]
            dsimp only at he ⊢
            split at he
            · obtain ⟨t, ht, hcolumn⟩ := ih he
              exact ⟨t, List.mem_cons_of_mem _ ht, hcolumn⟩
            · rcases List.mem_cons.1 he with rfl | he
              · exact ⟨_, List.mem_cons_self, rfl⟩
              · obtain ⟨t, ht, hcolumn⟩ := ih he
                exact ⟨t, List.mem_cons_of_mem _ ht, hcolumn⟩

/-- Two beginnings of a text that have the same width are the same. -/
theorem eq_of_width {a b x y : List Char} (h : a ++ x = b ++ y)
    (hwidth : Text.width a = Text.width b) :
    a = b := by
  rcases List.append_eq_append_iff.1 h with ⟨c, rfl, rfl⟩ | ⟨c, rfl, rfl⟩
  all_goals
    have hc : Text.width c = 0 := by
      rw [Text.width_append] at hwidth
      omega
    rw [width_eq_zero hc, List.append_nil]

/-- A file name is no token and does not start one: one quote precedes it. -/
theorem column_ne_of_firstQuoted {name : List Char} {column : Nat} (h : FirstQuoted name column cs)
    (he : e ∈ (code n cs).2) : e.column ≠ column := by
  obtain ⟨t, ht, hcolumn⟩ := exists_token_of_mem he
  obtain ⟨before, text, after, hcs, heven, _, _, _, hplace⟩ := (lexed_codeFrom n 0 cs).placed ht
  obtain ⟨before', after', hcs', hwidth, hquote, _⟩ := h
  rintro rfl
  have hone : '"'.utf8Size = 1 := rfl
  have hbefore : before = before' ++ ['"'] := by
    refine eq_of_width (x := text ++ after) (y := name ++ '"' :: after') ?_ ?_
    · rw [← hcs, hcs', List.append_assoc]
      rfl
    · rw [Text.width_append, Text.width_cons, Text.width_nil, hone]
      omega
  rw [hbefore, List.count_append, List.count_eq_zero.2 hquote] at heven
  cases heven

/-- The code of a line has one thing wrong at a column. -/
theorem find?_code (he : e ∈ (code n cs).2) :
    e.line = n ∧ (code n cs).2.find? (·.column = e.column) = some e := by
  have hsome : ((code n cs).2.find? (·.column = e.column)).isSome = true :=
    List.find?_isSome.2 ⟨e, he, by simp⟩
  obtain ⟨e', hfind⟩ := Option.isSome_iff_exists.1 hsome
  have hcolumn : e'.column = e.column := by simpa using List.find?_some hfind
  obtain ⟨_, hform⟩ := eq_of_mem_codeFrom he
  obtain ⟨_, hform'⟩ := eq_of_mem_codeFrom (List.mem_of_find?_eq_some hfind)
  have hsame : e' = e := by
    rw [hform, hform'] at hcolumn ⊢
    exact congrArg (Diagnostic.mk n · _ _ _) hcolumn
  exact ⟨by rw [hform], hsame ▸ hfind⟩

theorem fits_plainCode (symbols : Symbols) (n : Nat) (cs : List Char) :
    (plainCode symbols n cs).Fits (within n (codeRemark n cs)) where
  notes := by
    intro e he
    obtain ⟨hline, hfind⟩ := find?_code he
    simp [within, codeRemark, hline, hfind]
  imports := by
    intro r hr
    obtain ⟨file, hfile, rfl⟩ := Option.map_eq_some_iff.1 (Option.mem_toList.1 hr)
    have hfind : (code n cs).2.find? (·.column = file.offset) = none := by
      rw [List.find?_eq_none]
      intro e he
      simpa using column_ne_of_firstQuoted (firstQuoted_sourceImport? hfile) he
    have hremark : codeRemark n cs file.offset = some (.imports (String.ofList file.text)) := by
      simp [codeRemark, hfind, hfile]
    simp [within, imported, hremark]

theorem fits_openGroup (s : State) (n : Nat) (hd : d.column < d.argumentColumn)
    (hkeyword : d.keyword = .ifHolds) :
    (s.openGroup n d).2.Fits (within n (directiveRemark s.openings n d)) := by
  simp only [State.openGroup, State.test_eq_judge]
  split
  · refine fits_condition ?_
    simp only [directiveRemark, hkeyword]
    rw [if_neg (by omega)]
  · exact .of_nil rfl rfl

theorem fits_nextBranch (s : State) (n : Nat) (hd : d.column < d.argumentColumn)
    (hkeyword : d.keyword = .elseIf) :
    (s.nextBranch n d).2.Fits (within n (directiveRemark s.openings n d)) := by
  have hplace : directiveRemark s.openings n d d.column =
      nestingRemark s.openings ⟨.elseIf, n, d.column⟩ := by
    simp [directiveRemark, hkeyword]
  have hcondition : directiveRemark s.openings n d d.argumentColumn =
      conditionRemark n d.argumentColumn d.argument := by
    simp only [directiveRemark, hkeyword]
    rw [if_neg (by omega)]
  simp only [State.nextBranch, State.test_eq_judge]
  cases hgroups : s.groups with
  | nil =>
      refine fits_note rfl (hplace.trans ?_)
      simp [nestingRemark, State.openings, hgroups, nest, Mark.complaint]
  | cons g outer =>
      refine .append ?_ ?_
      · split
        · rename_i helse
          refine fits_note rfl (hplace.trans ?_)
          simp [nestingRemark, State.openings, hgroups, nest, Mark.complaint, Group.opening, helse]
        · exact .of_nil rfl rfl
      · split
        · exact fits_condition hcondition
        · exact .of_nil rfl rfl

theorem fits_lastBranch (s : State) (n : Nat) (hkeyword : d.keyword = .otherwise) :
    (s.lastBranch n d).2.Fits (within n (directiveRemark s.openings n d)) := by
  simp only [State.lastBranch]
  cases hgroups : s.groups with
  | nil =>
      refine fits_note rfl ?_
      simp [directiveRemark, hkeyword, nestingRemark, State.openings, hgroups, nest, Mark.complaint]
  | cons g outer =>
      dsimp only
      split
      · rename_i helse
        refine fits_note rfl ?_
        simp [directiveRemark, hkeyword, nestingRemark, State.openings, hgroups, nest,
          Mark.complaint,
          Group.opening, helse]
      · exact .of_nil rfl rfl

theorem fits_closeGroup (s : State) (n : Nat) (hkeyword : d.keyword = .endIf) :
    (s.closeGroup n d).2.Fits (within n (directiveRemark s.openings n d)) := by
  simp only [State.closeGroup]
  cases hgroups : s.groups with
  | nil =>
      refine fits_note rfl ?_
      simp [directiveRemark, hkeyword, nestingRemark, State.openings, hgroups, nest, Mark.complaint]
  | cons g outer => exact .of_nil rfl rfl

theorem fits_directive (s : State) (n : Nat) (hd : d.column < d.argumentColumn) :
    (s.directive n d).2.Fits (within n (directiveRemark s.openings n d)) := by
  cases hconditional : d.keyword.isConditional with
  | true =>
      unfold State.directive
      cases hkeyword : d.keyword with
      | ifHolds => exact fits_openGroup s n hd hkeyword
      | elseIf => exact fits_nextBranch s n hd hkeyword
      | otherwise => exact fits_lastBranch s n hkeyword
      | endIf => exact fits_closeGroup s n hkeyword
      | _ => simp [hkeyword, Keyword.isConditional] at hconditional
  | false =>
      have hplain : directiveRemark s.openings n d = fun _ => plainRemark n d := by
        funext column
        unfold directiveRemark
        split <;> simp_all [Keyword.isConditional]
      cases hactive : s.active with
      | true =>
          rw [State.directive_plain s hactive n hconditional, hplain]
          exact fits_plainDirective _ _ _
      | false =>
          rw [State.directive_inactive s hactive n hconditional]
          exact .of_nil rfl rfl

theorem fits_maskedLine (s : State) (n : Nat) (cs : List Char) :
    (s.maskedLine n cs).2.Fits (within n (lineRemark s.openings n cs)) := by
  unfold State.maskedLine lineRemark
  cases hd : Directive.ofLine? cs with
  | some d => exact .append (.of_nil rfl rfl) (fits_directive s n (Directive.column_lt hd))
  | none =>
      dsimp only
      cases hactive : s.active with
      | true =>
          rw [s.codeLine_active hactive]
          exact fits_plainCode _ _ _
      | false =>
          simp only [State.codeLine, hactive]
          exact .of_nil rfl rfl

theorem openings_maskedLine (s : State) (n : Nat) (cs : List Char) :
    (s.maskedLine n cs).1.openings = nestLine s.openings n cs := by
  unfold State.maskedLine nestLine
  cases Directive.ofLine? cs with
  | none => rfl
  | some d =>
      dsimp only
      cases hconditional : d.keyword.isConditional with
      | true => exact (s.directive_nest n hconditional).1
      | false =>
          rw [(s.directive_unconditional n hconditional).1]
          unfold nest
          split <;> simp_all [Keyword.isConditional]

end Line

section Lines

theorem le_of_remarkFrom {opened : List Opening} {n line column : Nat} {texts : List (List Char)}
    {x : Remark} (h : remarkFrom opened n texts line column = some x) : n ≤ line := by
  induction texts generalizing opened n with
  | nil => cases h
  | cons cs rest ih =>
      unfold remarkFrom at h
      split at h
      · omega
      · have := ih h
        omega

theorem fits_bareLines (s : State) (n : Nat) (texts : List (List Char)) :
    (s.bareLines n texts).2.Fits (remarkFrom s.openings n texts) := by
  induction texts generalizing s n with
  | nil => exact .of_nil rfl rfl
  | cons cs rest ih =>
      refine .append ((fits_maskedLine s n cs).imp ?_) ((ih (s.maskedLine n cs).1 (n + 1)).imp ?_)
      · intro line column x h
        unfold within at h
        split at h
        · rename_i hline
          rw [remarkFrom, if_pos hline, h]
        · cases h
      · intro line column x h
        have hle := le_of_remarkFrom h
        rw [openings_maskedLine] at h
        rw [remarkFrom, if_neg (by omega), h]

/-- A group that is open after a line was open before it, or the line opens it. -/
theorem mem_nest {opened : List Opening} {m : Mark} {o : Opening} (ho : o ∈ (nest opened m).1) :
    (∃ o' ∈ opened, o'.line = o.line) ∨ m.keyword = .ifHolds ∧ o.line = m.line := by
  unfold nest at ho
  split at ho <;> grind

theorem mem_nestLine {opened : List Opening} {n : Nat} {cs : List Char} {o : Opening}
    (ho : o ∈ nestLine opened n cs) : (∃ o' ∈ opened, o'.line = o.line) ∨
      o.line = n ∧ lineRemark opened n cs 0 = some (.note (unclosed n)) := by
  unfold nestLine at ho
  unfold lineRemark
  cases hd : Directive.ofLine? cs with
  | none =>
      rw [hd] at ho
      exact .inl ⟨o, ho, rfl⟩
  | some d =>
      rw [hd] at ho
      rcases mem_nest ho with hold | ⟨hkeyword, hline⟩
      · exact .inl hold
      · dsimp only at hkeyword
        exact .inr ⟨hline, by simp [directiveRemark, hkeyword]⟩

theorem remarkFrom_openings (s : State) (n : Nat) (texts : List (List Char)) :
    ∀ o ∈ (s.bareLines n texts).1.openings, (∃ o' ∈ s.openings, o'.line = o.line) ∨
      remarkFrom s.openings n texts o.line 0 = some (.note (unclosed o.line)) := by
  induction texts generalizing s n with
  | nil => exact fun o ho => .inl ⟨o, ho, rfl⟩
  | cons cs rest ih =>
      intro o ho
      rw [remarkFrom]
      rcases ih (s.maskedLine n cs).1 (n + 1) o ho with ⟨o', ho', hline⟩ | hremark
      · rw [openings_maskedLine] at ho'
        rcases mem_nestLine ho' with ⟨o₀, ho₀, hold⟩ | ⟨hnew, hremark⟩
        · exact .inl ⟨o₀, ho₀, hold.trans hline⟩
        · rw [← hline, hnew, if_pos rfl]
          exact .inr hremark
      · have hle := le_of_remarkFrom hremark
        rw [openings_maskedLine] at hremark
        rw [if_neg (by omega)]
        exact .inr hremark

theorem fits_finish (s : State) (n : Nat) (texts : List (List Char)) (hs : s.groups = []) :
    (s.bareLines n texts).1.finish.Fits (remarkFrom s.openings n texts) where
  notes := by
    intro e he
    obtain ⟨g, hg, rfl⟩ := List.mem_map.1 he
    have hopening : g.opening ∈ (s.bareLines n texts).1.openings :=
      List.mem_map.2 ⟨g, List.mem_reverse.1 hg, rfl⟩
    rcases remarkFrom_openings s n texts _ hopening with ⟨o, ho, _⟩ | hremark
    · simp [State.openings, hs] at ho
    · exact hremark
  imports := by simp [State.finish]

end Lines

/-- Whatever symbols a text is scanned under, what is found at a place is what may be said there. -/
theorem fits_scan (text : String) (symbols : Symbols) :
    (scan text symbols).findings.Fits (remark text) := by
  rw [scan_eq_bareLines]
  let s : State := { symbols }
  exact .append (fits_bareLines s 0 _) (fits_finish s 0 _ rfl)

end AsmIndex.Source

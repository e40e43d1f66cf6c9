import AsmIndex.Proofs.ConditionalBlocks
import AsmIndex.Proofs.FileNames
import AsmIndex.Proofs.Patterns
import Mathlib.Data.List.TakeDrop

/-!
How the argument of `#importif` is split. The pattern for it takes white space, a condition of at
least one character and as few as possible, white space, a quoted name and white space up to the
end. It follows that the name stands between the last two quotes of the argument, whatever quotes
and white space come before.
-/

namespace AsmIndex

theorem Text.newline_not_mem_linesFrom {held cs line : List Char} (hheld : '\n' ∉ held)
    (hline : line ∈ linesFrom held cs) : '\n' ∉ line := by
  induction cs generalizing held with
  | nil =>
      rw [linesFrom] at hline
      split at hline
      · cases hline
      · rw [List.mem_singleton.1 hline, List.mem_reverse]
        exact hheld
  | cons c rest ih =>
      rw [linesFrom] at hline
      split at hline
      · rcases List.mem_cons.1 hline with rfl | hline
        · have hreturn : dropReturn held ⊆ held := by
            unfold dropReturn
            split <;> simp
          exact fun hmem => hheld (hreturn (List.mem_reverse.1 hmem))
        · exact ih (by simp) hline
      · exact ih (by simp_all [eq_comm]) hline

namespace Source

/-- A quoted name, which is captured, and white space up to the end of the text: `"([^"]*)"\s*$`. -/
def quotedEnd : Pattern :=
  .seq (.one (· == '"')) <| .seq (.capture (.many true (· != '"'))) <| .seq (.one (· == '"')) <|
    .seq (.many true Text.isWhiteSpace) .atEnd

/-- The same after white space: `\s*"([^"]*)"\s*$`. -/
def nameAtEnd : Pattern := .seq (.many true Text.isWhiteSpace) quotedEnd

/-- The same after a condition, which is captured: `(.+?)\s*"([^"]*)"\s*$`. -/
def guardAndName : Pattern :=
  .seq (.capture (.seq (.one (· != '\n')) (.many false (· != '\n')))) nameAtEnd

/-- The whole argument of `#importif`: `^\s*(.+?)\s*"([^"]*)"\s*$`. -/
def guardedImport : Pattern := .seq (.many true Text.isWhiteSpace) guardAndName

/-- A text ends with a quoted name, but for white space after it, and `before` comes before that. -/
def EndsQuoted (cs before name : List Char) : Prop :=
  Text.trimEnd cs = before ++ '"' :: (name ++ ['"']) ∧ '"' ∉ name

section Quotes

variable {x x' t t' : List Char}

theorem last_quote_unique (h : x ++ '"' :: t = x' ++ '"' :: t') (ht : '"' ∉ t)
    (ht' : '"' ∉ t') :
    x = x' ∧ t = t' := by
  rcases append_eq_append_cons h with ⟨y, rfl, hy⟩ | ⟨y, rfl⟩
  · cases y with
    | nil => exact ⟨by simp, (List.cons.inj hy).2⟩
    | cons c y =>
        obtain ⟨-, rfl⟩ := List.cons.inj hy
        simp at ht
  · rw [List.append_assoc, List.cons_append] at h
    obtain ⟨-, rfl⟩ := List.cons.inj (List.append_cancel_left h)
    simp at ht'

theorem forall_ne_quote : (∀ c ∈ t, (c != '"') = true) ↔ '"' ∉ t := by
  simp only [bne_iff_ne, ne_eq]
  exact ⟨fun h hmem => h _ hmem rfl, fun h c hc heq => h (heq ▸ hc)⟩

/-- The last two quotes of a text are where they are. -/
theorem last_quotes_unique {before before' name name' tail tail' : List Char}
    (h : before ++ '"' :: (name ++ '"' :: tail) = before' ++ '"' :: (name' ++ '"' :: tail'))
    (hname : '"' ∉ name) (hname' : '"' ∉ name') (htail : '"' ∉ tail)
    (htail' : '"' ∉ tail') :
    before = before' ∧ name = name' ∧ tail = tail' := by
  rw [← List.cons_append, ← List.cons_append, ← List.append_assoc, ← List.append_assoc] at h
  obtain ⟨hfirst, rfl⟩ := last_quote_unique h htail htail'
  obtain ⟨rfl, rfl⟩ := last_quote_unique hfirst hname hname'
  exact ⟨rfl, rfl, rfl⟩

theorem quote_not_mem_of_blank (ht : ∀ c ∈ t, Text.isWhiteSpace c = true) : '"' ∉ t :=
  fun hmem => absurd (ht _ hmem) (by decide)

theorem exists_trimEnd_append (cs : List Char) :
    ∃ tail, cs = Text.trimEnd cs ++ tail ∧ ∀ c ∈ tail, Text.isWhiteSpace c = true := by
  refine ⟨(cs.reverse.takeWhile Text.isWhiteSpace).reverse, ?_, ?_⟩
  · rw [Text.trimEnd, ← List.reverse_append, List.takeWhile_append_dropWhile,
      List.reverse_reverse]
  · intro c hc
    exact List.mem_takeWhile_imp (List.mem_reverse.1 hc)

theorem trimEnd_append_quote (ht : ∀ c ∈ t, Text.isWhiteSpace c = true) :
    Text.trimEnd (x ++ '"' :: t) = x ++ ['"'] := by
  have hquote : Text.isWhiteSpace '"' = false := by decide
  have hblank : ∀ c ∈ t.reverse, Text.isWhiteSpace c = true := by simpa using ht
  rw [Text.trimEnd, List.reverse_append, List.reverse_cons, List.append_assoc,
    List.dropWhile_append_of_pos hblank]
  simp [hquote]

theorem endsQuoted_iff {cs before name : List Char} :
    EndsQuoted cs before name ↔
      ∃ tail, cs = before ++ '"' :: (name ++ '"' :: tail) ∧ '"' ∉ name ∧
        ∀ c ∈ tail, Text.isWhiteSpace c = true := by
  constructor
  · rintro ⟨htrim, hname⟩
    obtain ⟨tail, hcs, htail⟩ := exists_trimEnd_append cs
    rw [htrim] at hcs
    exact ⟨tail, by simpa using hcs, hname, htail⟩
  · rintro ⟨tail, rfl, hname, htail⟩
    refine ⟨?_, hname⟩
    rw [← List.cons_append, ← List.append_assoc, trimEnd_append_quote htail, List.append_assoc]
    rfl

end Quotes

section Matching

variable {cs : List Char} {m : Match}

theorem mem_blankEnd :
    m ∈ (Pattern.seq (.many true Text.isWhiteSpace) .atEnd).ways cs ↔
      (∀ c ∈ cs, Text.isWhiteSpace c = true) ∧ m = ⟨cs, [], []⟩ := by
  simp only [Pattern.mem_many_seq, Pattern.mem_atEnd]
  constructor
  · rintro ⟨taken, rest, rfl, htaken, m', ⟨rfl, rfl⟩, rfl⟩
    simpa [Match.after] using htaken
  · rintro ⟨hblank, rfl⟩
    exact ⟨cs, [], by simp, hblank, _, ⟨rfl, rfl⟩, by simp [Match.after]⟩

theorem mem_quote_seq {next : Pattern} :
    m ∈ (Pattern.seq (.one (· == '"')) next).ways cs ↔
      ∃ rest, cs = '"' :: rest ∧ ∃ m' ∈ next.ways rest, m = m'.after ['"'] := by
  rw [Pattern.mem_one_seq]
  constructor
  · rintro ⟨c, rest, hcs, hc, hnext⟩
    obtain rfl : c = '"' := by simpa using hc
    exact ⟨rest, hcs, hnext⟩
  · rintro ⟨rest, hcs, hnext⟩
    exact ⟨'"', rest, hcs, rfl, hnext⟩

theorem mem_name_seq {next : Pattern} :
    m ∈ (Pattern.seq (.capture (.many true (· != '"'))) next).ways cs ↔
      ∃ name rest, cs = name ++ rest ∧ '"' ∉ name ∧ ∃ m' ∈ next.ways rest,
        m = Match.append ⟨name, [⟨0, name⟩], rest⟩ m' := by
  simp only [Pattern.mem_seq, Pattern.mem_capture, Pattern.mem_many, forall_ne_quote]
  constructor
  · rintro ⟨_, ⟨_, ⟨name, rest, hcs, hquote, rfl⟩, rfl⟩, m', hm', rfl⟩
    exact ⟨name, rest, hcs, hquote, m', hm', rfl⟩
  · rintro ⟨name, rest, hcs, hquote, m', hm', rfl⟩
    exact ⟨_, ⟨_, ⟨name, rest, hcs, hquote, rfl⟩, rfl⟩, m', hm', rfl⟩

theorem mem_quotedEnd :
    m ∈ quotedEnd.ways cs ↔
      ∃ name tail, cs = '"' :: (name ++ '"' :: tail) ∧ '"' ∉ name ∧
        (∀ c ∈ tail, Text.isWhiteSpace c = true) ∧ m = ⟨cs, [⟨1, name⟩], []⟩ := by
  simp only [quotedEnd, mem_quote_seq, mem_name_seq, mem_blankEnd]
  constructor
  · rintro ⟨_, rfl, _,
      ⟨name, _, rfl, hname, _, ⟨tail, rfl, _, ⟨htail, rfl⟩, rfl⟩, rfl⟩, rfl⟩
    exact ⟨name, tail, rfl, hname, htail, rfl⟩
  · rintro ⟨name, tail, rfl, hname, htail, rfl⟩
    exact ⟨_, rfl, _,
      ⟨name, _, rfl, hname, _, ⟨tail, rfl, _, ⟨htail, rfl⟩, rfl⟩, rfl⟩, rfl⟩

theorem mem_nameAtEnd :
    m ∈ nameAtEnd.ways cs ↔
      ∃ blank name tail, cs = blank ++ '"' :: (name ++ '"' :: tail) ∧
        (∀ c ∈ blank, Text.isWhiteSpace c = true) ∧ '"' ∉ name ∧
        (∀ c ∈ tail, Text.isWhiteSpace c = true) ∧
        m = ⟨cs, [⟨Text.width blank + 1, name⟩], []⟩ := by
  simp only [nameAtEnd, Pattern.mem_many_seq, mem_quotedEnd]
  constructor
  · rintro ⟨blank, _, rfl, hblank, _, ⟨name, tail, rfl, hname, htail, rfl⟩, rfl⟩
    exact ⟨blank, name, tail, rfl, hblank, hname, htail, rfl⟩
  · rintro ⟨blank, name, tail, rfl, hblank, hname, htail, rfl⟩
    exact ⟨blank, _, rfl, hblank, _, ⟨name, tail, rfl, hname, htail, rfl⟩, rfl⟩

theorem exists_quoted_of_mem_guardAndName (h : m ∈ guardAndName.ways cs) :
    ∃ before name tail, cs = before ++ '"' :: (name ++ '"' :: tail) ∧ before ≠ [] ∧
      '"' ∉ name ∧
      ∀ c ∈ tail, Text.isWhiteSpace c = true := by
  simp only [guardAndName, Pattern.mem_seq, Pattern.mem_capture, Pattern.mem_one,
    Pattern.mem_many] at h
  obtain ⟨_, ⟨_, ⟨_, ⟨c, rest, rfl, -, rfl⟩, _, ⟨taken, after, rfl, -, rfl⟩, rfl⟩,
    rfl⟩, m', hm', -⟩ := h
  obtain ⟨blank, name, tail, hafter, -, hname, htail, -⟩ := mem_nameAtEnd.1 hm'
  have hrest : after = blank ++ '"' :: (name ++ '"' :: tail) := hafter
  exact ⟨c :: (taken ++ blank), name, tail, by simp [hrest], by simp, hname, htail⟩

theorem exists_quoted_of_mem_guardedImport (h : m ∈ guardedImport.ways cs) :
    ∃ before name tail, cs = before ++ '"' :: (name ++ '"' :: tail) ∧ before ≠ [] ∧
      '"' ∉ name ∧
      ∀ c ∈ tail, Text.isWhiteSpace c = true := by
  obtain ⟨blank, rest, rfl, -, m', hm', -⟩ := Pattern.mem_many_seq.1 h
  obtain ⟨before, name, tail, rfl, hbefore, hname, htail⟩ :=
    exists_quoted_of_mem_guardAndName hm'
  exact ⟨blank ++ before, name, tail, by simp, by simp [hbefore], hname, htail⟩

end Matching

theorem trimEnd_cons (c : Char) (cs : List Char) :
    Text.trimEnd (c :: cs) =
      if (c :: cs).all Text.isWhiteSpace then [] else c :: Text.trimEnd cs := by
  have hempty : (cs.reverse.dropWhile Text.isWhiteSpace).isEmpty = cs.all Text.isWhiteSpace := by
    rw [Bool.eq_iff_iff, List.isEmpty_iff, List.dropWhile_eq_nil_iff, List.all_eq_true]
    simp
  rw [Text.trimEnd, Text.trimEnd, List.reverse_cons, List.dropWhile_append, hempty, List.all_cons]
  cases hall : cs.all Text.isWhiteSpace with
  | false => simp
  | true =>
      have hnil : cs.reverse.dropWhile Text.isWhiteSpace = [] := by
        rwa [← List.isEmpty_iff, hempty]
      cases hc : Text.isWhiteSpace c <;> simp [hc, hnil]

theorem guardPiece_blank {c : Char} {cs : List Char} (hc : Text.isWhiteSpace c = true)
    (hcs : cs ≠ []) :
    guardPiece (c :: cs) = (guardPiece cs).shift c.utf8Size := by
  obtain ⟨d, cs, rfl⟩ := List.exists_cons_of_ne_nil hcs
  cases hall : (d :: cs).all Text.isWhiteSpace with
  | true =>
      have hall' : (c :: d :: cs).all Text.isWhiteSpace = true := by
        rw [List.all_cons, hc, hall]; rfl
      simp [guardPiece, hall, hall', Piece.shift]
  | false =>
      have hall' : (c :: d :: cs).all Text.isWhiteSpace = false := by rw [List.all_cons, hall]; simp
      simp [guardPiece, hall, hall', Piece.shift, hc, Text.trim]

theorem guardPiece_word {c : Char} {cs : List Char} (hc : Text.isWhiteSpace c = false) :
    guardPiece (c :: cs) = ⟨0, c :: Text.trimEnd cs⟩ := by
  simp [guardPiece, hc, Text.trim, trimEnd_cons]

section FirstWay

variable {name tail : List Char} (hname : '"' ∉ name)
  (htail : ∀ c ∈ tail, Text.isWhiteSpace c = true)

include hname htail

theorem first?_nameAtEnd (before : List Char) :
    nameAtEnd.first? (before ++ '"' :: (name ++ '"' :: tail)) =
      if before.all Text.isWhiteSpace then
        some ⟨before ++ '"' :: (name ++ '"' :: tail), [⟨Text.width before + 1, name⟩], []⟩
      else none := by
  have hways (m : Match) : m ∈ nameAtEnd.ways (before ++ '"' :: (name ++ '"' :: tail)) ↔
      before.all Text.isWhiteSpace = true ∧
        m = ⟨before ++ '"' :: (name ++ '"' :: tail),
          [⟨Text.width before + 1, name⟩], []⟩ := by
    rw [mem_nameAtEnd, List.all_eq_true]
    constructor
    · rintro ⟨blank, name', tail', hcs, hblank, hname', htail', rfl⟩
      obtain ⟨rfl, rfl, rfl⟩ :=
        last_quotes_unique hcs hname hname' (quote_not_mem_of_blank htail)
        (quote_not_mem_of_blank htail')
      exact ⟨hblank, rfl⟩
    · rintro ⟨hblank, rfl⟩
      exact ⟨before, name, tail, rfl, hblank, hname, htail, rfl⟩
  unfold Pattern.first?
  cases hfirst : nameAtEnd.ways (before ++ '"' :: (name ++ '"' :: tail)) with
  | nil =>
      rw [if_neg]
      · rfl
      · intro hblank
        have hmem := (hways _).2 ⟨hblank, rfl⟩
        rw [hfirst] at hmem
        cases hmem
  | cons m ms =>
      obtain ⟨hblank, rfl⟩ := (hways m).1 (hfirst ▸ List.mem_cons_self)
      rw [if_pos hblank]
      rfl

/-- Of the ways to capture a condition, the first one leaves white space alone before the name. -/
theorem findSome?_nameAtEnd {before : List Char} (hbefore : '\n' ∉ before) :
    ∃ blank, before = Text.trimEnd before ++ blank ∧ ∀ g : Match → Match → Match,
      (runs (· != '\n') (before ++ '"' :: (name ++ '"' :: tail))).findSome?
          (fun m => (nameAtEnd.first? m.rest).map (g m)) =
        some (g ⟨Text.trimEnd before, [], blank ++ '"' :: (name ++ '"' :: tail)⟩
          ⟨blank ++ '"' :: (name ++ '"' :: tail), [⟨Text.width blank + 1, name⟩], []⟩) := by
  induction before with
  | nil =>
      have hhere := first?_nameAtEnd hname htail []
      refine ⟨[], rfl, fun g => ?_⟩
      rw [List.nil_append] at hhere ⊢
      simp [runs, hhere, Text.trimEnd]
  | cons c before ih =>
      have hhere := first?_nameAtEnd hname htail (c :: before)
      rw [List.cons_append] at hhere
      by_cases hall : (c :: before).all Text.isWhiteSpace = true
      · have htrim : Text.trimEnd (c :: before) = [] := by rw [trimEnd_cons, if_pos hall]
        rw [if_pos hall] at hhere
        exact ⟨c :: before, by rw [htrim]; rfl, fun g => by simp [runs, hhere, htrim]⟩
      · have htrim : Text.trimEnd (c :: before) = c :: Text.trimEnd before := by
          rw [trimEnd_cons, if_neg hall]
        rw [List.mem_cons, not_or] at hbefore
        obtain ⟨blank, hblank, hlater⟩ := ih hbefore.2
        have hc : (c != '\n') = true := by simpa using Ne.symm hbefore.1
        rw [if_neg hall] at hhere
        refine ⟨blank, by rw [htrim, List.cons_append, ← hblank], fun g => ?_⟩
        have hshifted := hlater fun m => g (m.after [c])
        simp only [List.cons_append, runs, hc, if_true, List.findSome?_cons, hhere, Option.map_none,
          List.findSome?_map, Function.comp_def, Match.rest_after, hshifted, htrim]
        rfl

theorem first?_guardAndName {c : Char} {before : List Char} (hbefore : '\n' ∉ c :: before) :
    guardAndName.first? (c :: (before ++ '"' :: (name ++ '"' :: tail))) =
      some ⟨c :: (before ++ '"' :: (name ++ '"' :: tail)),
        [⟨0, c :: Text.trimEnd before⟩, ⟨Text.width (c :: before) + 1, name⟩], []⟩ := by
  rw [List.mem_cons, not_or] at hbefore
  have hc : (c != '\n') = true := by simpa using Ne.symm hbefore.1
  obtain ⟨blank, hblank, hfirst⟩ := findSome?_nameAtEnd hname htail hbefore.2
  have hways (u : List Char) :
      (Pattern.capture (.seq (.one (· != '\n')) (.many false (· != '\n')))).ways (c :: u) =
        (runs (· != '\n') u).map fun m =>
          { m.after [c] with captures := ⟨0, c :: m.taken⟩ :: (m.after [c]).captures } := by
    simp [Pattern.ways, hc, Match.append, Match.after]
  rw [guardAndName, Pattern.first?_seq, hways, List.findSome?_map]
  refine (hfirst fun m => Match.append
    { m.after [c] with captures := ⟨0, c :: m.taken⟩ :: (m.after [c]).captures }).trans ?_
  have htaken : Text.trimEnd before ++ (blank ++ '"' :: (name ++ '"' :: tail)) =
      before ++ '"' :: (name ++ '"' :: tail) := by
    rw [← List.append_assoc, ← hblank]
  have hwidth : Text.width before = Text.width (Text.trimEnd before) + Text.width blank := by
    rw [← Text.width_append, ← hblank]
  simp [Match.append, Match.after, Piece.shift, htaken, hwidth, Nat.add_assoc]

theorem first?_guardAndName_nil : guardAndName.first? ('"' :: (name ++ '"' :: tail)) = none := by
  rw [Pattern.first?, List.head?_eq_none_iff, List.eq_nil_iff_forall_not_mem]
  intro m hm
  obtain ⟨before, name', tail', hcs, hbefore, hname', htail'⟩ :=
    exists_quoted_of_mem_guardAndName hm
  rw [← List.nil_append ('"' :: (name ++ '"' :: tail))] at hcs
  obtain ⟨rfl, -⟩ := last_quotes_unique hcs hname hname' (quote_not_mem_of_blank htail)
    (quote_not_mem_of_blank htail')
  exact hbefore rfl

theorem first?_guardedImport {before : List Char} (hbefore : '\n' ∉ before)
    (hne : before ≠ []) :
    guardedImport.first? (before ++ '"' :: (name ++ '"' :: tail)) =
      some ⟨before ++ '"' :: (name ++ '"' :: tail),
        [guardPiece before, ⟨Text.width before + 1, name⟩], []⟩ := by
  induction before with
  | nil => exact absurd rfl hne
  | cons c before ih =>
      rw [List.cons_append, guardedImport, Pattern.first?_greedy,
        first?_guardAndName hname htail hbefore]
      rw [List.mem_cons, not_or] at hbefore
      split
      · rename_i hc
        cases before with
        | nil =>
            have hnone : guardedImport.first? ('"' :: (name ++ '"' :: tail)) = none := by
              rw [guardedImport, Pattern.first?_greedy, first?_guardAndName_nil hname htail]
              rfl
            rw [guardedImport] at hnone
            simp [hnone, guardPiece, hc, Text.trimEnd]
        | cons d before =>
            have hlater := ih hbefore.2 (by simp)
            rw [guardedImport] at hlater
            rw [hlater, guardPiece_blank hc (by simp)]
            simp [Match.after, Piece.shift, Nat.add_assoc]
      · rename_i hc
        rw [guardPiece_word (by simpa using hc)]

end FirstWay

section Split

variable {cs before name : List Char}

theorem guardedArgument?_of_endsQuoted (h : EndsQuoted cs before name) (hne : before ≠ []) :
    guardedArgument? cs = some (guardPiece before, ⟨Text.width before + 1, name⟩) := by
  obtain ⟨htrim, hname⟩ := h
  have hend : cs.reverse.dropWhile Text.isWhiteSpace =
      '"' :: (name.reverse ++ '"' :: before.reverse) := by
    have hreverse := congrArg List.reverse htrim
    simpa [Text.trimEnd] using hreverse
  have hkeep : ∀ c ∈ name.reverse, (c != '"') = true := forall_ne_quote.2 (by simpa using hname)
  obtain ⟨c, rest, hrest⟩ := List.exists_cons_of_ne_nil (List.reverse_ne_nil_iff.2 hne)
  have hbefore : (c :: rest).reverse = before := by rw [← hrest, List.reverse_reverse]
  simp only [guardedArgument?, hend, List.takeWhile_append_of_pos hkeep,
    List.dropWhile_append_of_pos hkeep, hrest]
  simp [hbefore]

/-- The argument is split as the pattern says. -/
theorem captures?_guardedImport (hcs : '\n' ∉ cs) :
    guardedImport.captures? cs = (guardedArgument? cs).map fun pieces => [pieces.1, pieces.2] := by
  cases hargument : guardedArgument? cs with
  | some pieces =>
      obtain ⟨guard, piece⟩ := pieces
      obtain ⟨before, tail, rfl, hne, hname, htail, rfl, hoffset⟩ :=
        quoted_of_guardedArgument? hargument
      rw [Pattern.captures?, first?_guardedImport hname htail (by simp_all) hne, ← hoffset]
      rfl
  | none =>
      rw [Pattern.captures?, Pattern.first?]
      cases hways : guardedImport.ways cs with
      | nil => rfl
      | cons m ms =>
          obtain ⟨before, name, tail, hsplit, hne, hname, htail⟩ :=
            exists_quoted_of_mem_guardedImport (hways ▸ List.mem_cons_self)
          have hquoted := endsQuoted_iff.2 ⟨tail, hsplit, hname, htail⟩
          rw [guardedArgument?_of_endsQuoted hquoted hne] at hargument
          cases hargument

theorem text_guardPiece (hne : before ≠ []) :
    (guardPiece before).text =
      if before.all Text.isWhiteSpace then before.getLast?.toList else Text.trim before := by
  unfold guardPiece
  split
  · rw [List.drop_length_sub_one hne, List.getLast?_eq_some_getLast hne]
    rfl
  · rfl

end Split

/-- A condition can be read, and it holds where the symbols of `s` are defined. -/
def Holds (s : Symbols) (cs : List Char) : Prop :=
  ∃ t, Condition.parse cs = .ok t ∧ t.holds s = true

theorem judge_of_holds {s : Symbols} {n column : Nat} {cs : List Char} (h : Holds s cs) :
    judge s n column cs = (true, []) := by
  obtain ⟨t, hparse, hholds⟩ := h
  simp [judge, hparse, hholds]

theorem judge_of_not_holds {s : Symbols} {n column : Nat} {cs : List Char} (h : ¬ Holds s cs) :
    (judge s n column cs).1 = false := by
  cases hparse : Condition.parse cs with
  | error e => simp [judge, hparse]
  | ok t =>
      have hfalse : t.holds s = false := by
        rw [← Bool.not_eq_true]
        exact fun hholds => h ⟨t, hparse, hholds⟩
      simp [judge, hparse, hfalse]

theorem length_judge_le (s : Symbols) (n column : Nat) (cs : List Char) :
    (judge s n column cs).2.length ≤ 1 := by
  unfold judge
  split <;> simp

/-- A character of a masked line other than a space is one of the line. -/
theorem mem_of_mem_mask {inComment : Bool} {line : List Char} {c : Char}
    (h : c ∈ (mask inComment line).1) (hc : c ≠ ' ') : c ∈ line := by
  obtain ⟨m₁, m₂, hmasked⟩ := List.append_of_mem h
  obtain ⟨l₁, l₂, -, -, rfl, -⟩ := (masking_maskFrom _ line).split hmasked hc
  simp

theorem newline_not_mem_argument {inComment : Bool} {text line : List Char} {d : Directive}
    (hline : line ∈ Text.lines text) (hd : Directive.ofLine? (mask inComment line).1 = some d) :
    '\n' ∉ d.argument := by
  intro hmem
  obtain ⟨before, hmasked, -⟩ := leaves_ofLine? hd
  have hmem' : '\n' ∈ (mask inComment line).1 := by
    rw [hmasked]
    exact List.mem_append_right _ hmem
  exact Text.newline_not_mem_linesFrom (by simp) hline (mem_of_mem_mask hmem' (by decide))

theorem State.findings_line (s : State) (n : Nat) {line : List Char} {d : Directive}
    (hd : Directive.ofLine? (mask s.inComment line).1 = some d)
    (hplain : d.keyword.isConditional = false) (hactive : s.active = true) :
    (s.line n line).2 = { tokens := [d.token n] } ++ (plainDirective s.symbols n d).findings := by
  have hs : State.active { s with inComment := (mask s.inComment line).2 } = true := hactive
  simp only [State.line, maskedLine, hd, directive_plain _ hs n hplain]
  rfl

/-- An active `#importif` line. The pattern for its argument matches exactly if the argument ends
with a quoted name, but for white space, and something comes before that. Then the name is the
text between the last two quotes, and the condition is what comes before them without the white
space around it, or the last character of that if it is all white space. The line imports the name
exactly if the condition can be read and holds, and says at most one thing is wrong. -/
theorem importIf_splits_at_last_quotes (s : State) (n : Nat) {text : String} {line : List Char}
    {d : Directive} (hline : line ∈ Text.lines text.toList)
    (hd : Directive.ofLine? (mask s.inComment line).1 = some d) (hkeyword : d.keyword = .importIf)
    (hactive : s.active = true) :
    let found := guardedImport.captures? d.argument
    let findings := (s.line n line).2
    (found.isSome = true ↔ ∃ before name, EndsQuoted d.argument before name ∧
      before ≠ []) ∧
      (∀ before name, EndsQuoted d.argument before name → before ≠ [] →
        ∃ guard : Piece, found = some [guard, ⟨Text.width before + 1, name⟩] ∧
          guard.text =
            (if before.all Text.isWhiteSpace then before.getLast?.toList else Text.trim before) ∧
          (Holds s.symbols guard.text → findings.references =
            [imported s.symbols n (d.argumentColumn + (Text.width before + 1)) name]) ∧
          (¬ Holds s.symbols guard.text → findings.references = [])) ∧
      (found = none → findings.references = []) ∧
      findings.diagnostics.length ≤ 1 := by
  intro found findings
  have hfound : found = (guardedArgument? d.argument).map fun pieces => [pieces.1, pieces.2] :=
    captures?_guardedImport (newline_not_mem_argument hline hd)
  have hfindings : findings = { tokens := [d.token n] } ++
      (plainDirective s.symbols n d).findings :=
    s.findings_line n hd (by rw [hkeyword]; rfl) hactive
  rw [plainDirective, hkeyword] at hfindings
  refine ⟨?_, ?_, ?_, ?_⟩
  · rw [hfound, Option.isSome_map]
    constructor
    · intro hsome
      obtain ⟨⟨guard, piece⟩, hargument⟩ := Option.isSome_iff_exists.1 hsome
      obtain ⟨before, tail, hcs, hne, hname, htail, -⟩ := quoted_of_guardedArgument? hargument
      exact ⟨before, piece.text, endsQuoted_iff.2 ⟨tail, hcs, hname, htail⟩, hne⟩
    · rintro ⟨before, name, hquoted, hne⟩
      rw [guardedArgument?_of_endsQuoted hquoted hne]
      rfl
  · intro before name hquoted hne
    have hargument := guardedArgument?_of_endsQuoted hquoted hne
    rw [hargument] at hfound
    simp only [hargument] at hfindings
    refine ⟨guardPiece before, hfound, text_guardPiece hne, fun hholds => ?_, fun hfails => ?_⟩
    · rw [hfindings, judge_of_holds hholds]
      rfl
    · simp [hfindings, judge_of_not_holds hfails]
  · intro hnone
    have hargument : guardedArgument? d.argument = none := by simpa [hfound] using hnone
    simp only [hargument] at hfindings
    rw [hfindings]
    rfl
  · rw [hfindings, Findings.diagnostics_append]
    cases hargument : guardedArgument? d.argument with
    | none => simp
    | some pieces => exact length_judge_le _ _ _ _

/-- White space of several bytes around the condition, and quotes in a comment. -/
def guardedLine : String := "#importif\u00a0A || B \u3000\"b\" // \"x\""

theorem importIf_splits_guardedLine :
    guardedLine.toList ∈ Text.lines guardedLine.toList ∧
      Directive.ofLine? (mask false guardedLine.toList).1 =
        some ⟨0, .importIf, 9, "\u00a0A || B \u3000\"b\"       ".toList⟩ ∧
      EndsQuoted "\u00a0A || B \u3000\"b\"       ".toList "\u00a0A || B \u3000".toList ['b'] ∧
      Holds (Symbols.ofList ["B"]) "A || B".toList ∧
      (State.line { symbols := Symbols.ofList ["B"] } 4 guardedLine.toList).2.references =
        [imported (Symbols.ofList ["B"]) 4 22 ['b']] := by
  have hline : guardedLine.toList ∈ Text.lines guardedLine.toList := by decide +kernel
  have hd : Directive.ofLine? (mask false guardedLine.toList).1 =
      some ⟨0, .importIf, 9, "\u00a0A || B \u3000\"b\"       ".toList⟩ := by decide +kernel
  have hquoted : EndsQuoted "\u00a0A || B \u3000\"b\"       ".toList
      "\u00a0A || B \u3000".toList ['b'] :=
    ⟨by decide +kernel, by decide⟩
  have hholds : Holds (Symbols.ofList ["B"]) "A || B".toList :=
    ⟨.either (.symbol "A") (.symbol "B"), by decide +kernel, by decide +kernel⟩
  obtain ⟨-, hsplit, -⟩ :=
    importIf_splits_at_last_quotes { symbols := Symbols.ofList ["B"] } 4 hline hd rfl rfl
  obtain ⟨guard, -, hguard, himport, -⟩ := hsplit _ _ hquoted (by decide)
  have htext : guard.text = "A || B".toList := hguard.trans (by decide +kernel)
  exact ⟨hline, hd, hquoted, hholds, himport (htext ▸ hholds)⟩

example : guardedImport.captures? "\t \"b\"".toList = some [⟨1, [' ']⟩, ⟨3, ['b']⟩] ∧
    guardedImport.captures? "A \"\" \"b\" ".toList = some [⟨0, "A \"\"".toList⟩,
      ⟨6, ['b']⟩] ∧
    guardedImport.captures? "\"b\"".toList = none ∧
    guardedImport.captures? "A \"b\" B".toList = none := by
  decide +kernel

end Source

end AsmIndex

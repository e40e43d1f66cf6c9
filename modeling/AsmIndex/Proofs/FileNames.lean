import AsmIndex.Proofs.CommentMasks
import AsmIndex.Proofs.ConditionGrammar
import AsmIndex.Proofs.ScanLines

/-!
Where the file names of imports stand. In the masked line no quote comes before the one that opens
the file name: the keyword and the white space have none, and neither has a condition that can be
read. So the file name stands between the same two quotes in the line.
-/

namespace AsmIndex.Condition

theorem Spells.quote_not_mem {ls : List Lexeme} {cs : List Char} (h : Spells ls cs)
    (hls : ∀ c, Lexeme.stray c ∉ ls) : '"' ∉ cs := by
  induction h with
  | done blank =>
      intro hmem
      exact absurd (blank _ hmem) (by decide)
  | @next blanks l ls after blank fits _ ih =>
      rw [List.append_assoc, List.mem_append, List.mem_append]
      rintro (hmem | hmem | hmem)
      · exact absurd (blank _ hmem) (by decide)
      · cases l with
        | name text =>
            obtain ⟨c, rest, rfl, hc, hrest⟩ := fits.1
            rcases List.mem_cons.1 hmem with rfl | hmem
            · exact absurd hc (by decide)
            · exact absurd (hrest _ hmem) (by decide)
        | stray c => exact hls c (by simp)
        | _ => exact absurd hmem (by decide)
      · exact ih (fun c hc => hls c (List.mem_cons_of_mem _ hc)) hmem

theorem quote_not_mem_of_parse {cs : List Char} {t : Condition} (h : parse cs = .ok t) :
    '"' ∉ cs :=
  (spells_lexemesFrom 0 cs).quote_not_mem (derives_of_parse h).alternates.stray

end AsmIndex.Condition

namespace AsmIndex.Source

/-- The name stands in a line at a byte column, between two quotes. -/
def QuotedAt (name : List Char) (column : Nat) (line : List Char) : Prop :=
  ∃ before after, line = before ++ '"' :: (name ++ '"' :: after) ∧
    Text.width before + 1 = column

/-- The name stands between the first two quotes. -/
def FirstQuoted (name : List Char) (column : Nat) (cs : List Char) : Prop :=
  ∃ before after, cs = before ++ '"' :: (name ++ '"' :: after) ∧
    Text.width before + 1 = column ∧
    '"' ∉ before ∧ '"' ∉ name

/-- The text `rest` comes after `offset` bytes of `cs`, among which is no quote. -/
def Leaves (cs : List Char) (offset : Nat) (rest : List Char) : Prop :=
  ∃ before, cs = before ++ rest ∧ Text.width before = offset ∧ '"' ∉ before

section Arguments

variable {cs rest rest' name : List Char} {offset offset' column : Nat} {piece : Piece}

theorem FirstQuoted.quotedAt {kind : Passage} {line : List Char} {marks : List Bool}
    (h : FirstQuoted name column cs) (hmask : Masking kind line cs marks)
    (hkind : kind ≠ .literal) : QuotedAt name column line := by
  obtain ⟨before, after, hcs, hcolumn, hbefore, hname⟩ := h
  have heven : before.count '"' % 2 = 0 := by rw [List.count_eq_zero.2 hbefore]
  obtain ⟨l₁, l₂, rfl, hwidth⟩ := hmask.closesLiteral hkind hcs heven hname
  exact ⟨l₁, l₂, rfl, hwidth ▸ hcolumn⟩

theorem Leaves.trans (h : Leaves cs offset rest) (h' : Leaves rest offset' rest') :
    Leaves cs (offset + offset') rest' := by
  obtain ⟨before, rfl, rfl, hbefore⟩ := h
  obtain ⟨before', rfl, rfl, hbefore'⟩ := h'
  exact ⟨before ++ before', by simp, by simp, by simp [hbefore, hbefore']⟩

theorem Leaves.firstQuoted (h : Leaves cs offset rest) (hname : FirstQuoted name column rest) :
    FirstQuoted name (offset + column) cs := by
  obtain ⟨before, rfl, rfl, hbefore⟩ := h
  obtain ⟨before', after, rfl, rfl, hbefore', hquote⟩ := hname
  refine ⟨before ++ before', after, by simp, ?_, by simp [hbefore, hbefore'], hquote⟩
  rw [Text.width_append, Nat.add_assoc]

theorem leaves_dropWhile (p : Char → Bool) (hp : p '"' = false) (cs : List Char) :
    Leaves cs (Text.width (cs.takeWhile p)) (cs.dropWhile p) := by
  refine ⟨cs.takeWhile p, cs.takeWhile_append_dropWhile.symm, rfl, fun hmem => ?_⟩
  exact Bool.false_ne_true (hp.symm.trans (List.mem_takeWhile_imp hmem))

theorem firstQuoted_quotedAt? {after : List Char} (h : quotedAt? offset cs = some (piece, after)) :
    piece.offset = offset + 1 ∧ FirstQuoted piece.text 1 cs := by
  unfold quotedAt? at h
  split at h
  · rename_i rest
    split at h
    · rename_i d after' hafter
      cases h
      exact ⟨rfl, [], after, congrArg _ (eq_of_dropWhile_quote hafter), rfl, by simp,
        quote_not_mem_takeWhile rest⟩
    · cases h
  · cases h

theorem firstQuoted_fileArgument? (h : fileArgument? cs = some piece) :
    FirstQuoted piece.text piece.offset cs := by
  unfold fileArgument? at h
  split at h
  · rename_i piece' after hquoted
    split at h
    · cases h
      obtain ⟨hoffset, hname⟩ := firstQuoted_quotedAt? hquoted
      rw [hoffset]
      exact (leaves_dropWhile _ (by decide) cs).firstQuoted hname
    · cases h
  · cases h

theorem mem_dropWhile {p : Char → Bool} {c : Char} (hc : p c = false) (hmem : c ∈ cs) :
    c ∈ cs.dropWhile p := by
  rw [← cs.takeWhile_append_dropWhile (p := p), List.mem_append] at hmem
  rcases hmem with hmem | hmem
  · exact absurd (List.mem_takeWhile_imp hmem) (by simp [hc])
  · exact hmem

theorem quote_mem_guardPiece (h : '"' ∈ cs) : '"' ∈ (guardPiece cs).text := by
  have hquote : Text.isWhiteSpace '"' = false := by decide
  unfold guardPiece
  split
  · rename_i hall
    exact absurd (List.all_eq_true.1 hall _ h) (by simp [hquote])
  · rw [Text.trim, Text.trimEnd, List.mem_reverse]
    exact mem_dropWhile hquote (List.mem_reverse.2 (mem_dropWhile hquote h))

/-- The file name stands between the last two quotes, and only white space comes after them. -/
theorem quoted_of_guardedArgument? {guard : Piece} (h : guardedArgument? cs = some (guard, piece)) :
    ∃ before tail, cs = before ++ '"' :: (piece.text ++ '"' :: tail) ∧ before ≠ [] ∧
      '"' ∉ piece.text ∧ (∀ c ∈ tail, Text.isWhiteSpace c = true) ∧
      guard = guardPiece before ∧
      piece.offset = Text.width before + 1 := by
  unfold guardedArgument? at h
  split at h
  · rename_i rest hend
    dsimp only at h
    split at h
    · rename_i d c before hrest
      obtain ⟨rfl, rfl⟩ := Prod.mk.inj (Option.some.inj h)
      have hreverse := cs.reverse.takeWhile_append_dropWhile (p := Text.isWhiteSpace)
      rw [hend, eq_of_dropWhile_quote hrest] at hreverse
      have hcs := congrArg List.reverse hreverse.symm
      rw [List.reverse_reverse] at hcs
      refine ⟨(c :: before).reverse, (cs.reverse.takeWhile Text.isWhiteSpace).reverse,
        hcs.trans (by simp), by simp, ?_, ?_, rfl, rfl⟩
      · simpa using quote_not_mem_takeWhile rest
      · intro c hc
        exact List.mem_takeWhile_imp (List.mem_reverse.1 hc)
    · cases h
  · cases h

/-- There is no quote before the file name, where the condition before it has none. -/
theorem firstQuoted_guardedArgument? {guard : Piece} (h : guardedArgument? cs = some (guard, piece))
    (hguard : '"' ∉ guard.text) : FirstQuoted piece.text piece.offset cs := by
  obtain ⟨before, tail, hcs, -, hname, -, rfl, hoffset⟩ := quoted_of_guardedArgument? h
  exact ⟨before, tail, hcs, hoffset.symm, fun hmem => hguard (quote_mem_guardPiece hmem), hname⟩

theorem leaves_after? {word : String} (h : after? word cs = some rest)
    (hword : '"' ∉ word.toList) :
    Leaves cs (Text.width word.toList) rest := by
  unfold after? at h
  split at h
  · rename_i hstart
    cases h
    obtain ⟨after, rfl⟩ := List.isPrefixOf_iff_prefix.1 hstart
    exact ⟨word.toList, by rw [← String.length_toList, List.drop_left], rfl, hword⟩
  · cases h

theorem leaves_afterSpace? (h : afterSpace? cs = some rest) :
    Leaves cs (Text.width (cs.takeWhile Text.isWhiteSpace)) rest := by
  unfold afterSpace? at h
  split at h
  · cases h
    exact leaves_dropWhile _ (by decide) cs
  · cases h

theorem firstQuoted_sourceImport? (h : sourceImport? cs = some piece) :
    FirstQuoted piece.text piece.offset cs := by
  simp only [sourceImport?, Option.bind_eq_bind, Option.bind_eq_some_iff] at h
  obtain ⟨rest₁, h₁, rest₂, h₂, rest₃, h₃, rest₄, h₄, ⟨piece, after⟩,
    hpiece, hp⟩ := h
  cases hp
  have hleaves := ((((leaves_dropWhile Text.isWhiteSpace (by decide) cs).trans
    (leaves_after? h₁ (by decide))).trans (leaves_afterSpace? h₂)).trans
    (leaves_after? h₃ (by decide))).trans (leaves_afterSpace? h₄)
  generalize Text.width (cs.takeWhile Text.isWhiteSpace) + _ + _ + _ + _ = offset at hleaves
  obtain ⟨hoffset, hname⟩ := firstQuoted_quotedAt? hpiece
  have hwidth : Text.width cs - Text.width rest₄ = offset := by
    obtain ⟨before, rfl, rfl, -⟩ := hleaves
    rw [Text.width_append, Nat.add_sub_cancel]
  rw [hoffset, hwidth]
  exact hleaves.firstQuoted hname

theorem leaves_ofLine? {d : Directive} (h : Directive.ofLine? cs = some d) :
    Leaves cs d.argumentColumn d.argument := by
  unfold Directive.ofLine? at h
  dsimp only at h
  split at h
  · rename_i rest hrest
    obtain ⟨keyword, -, rfl⟩ := Option.map_eq_some_iff.1 h
    have hindent := leaves_dropWhile Text.isWhiteSpace (by decide) cs
    rw [hrest] at hindent
    have hhash : Leaves ('#' :: rest) 1 rest := ⟨['#'], rfl, rfl, by decide⟩
    exact (hindent.trans hhash).trans (leaves_dropWhile Text.isWord (by decide) rest)
  · cases h

end Arguments

namespace State

variable {s : State} {n : Nat} {r : Reference}

/-- A reference of line `n` whose file name stands between the first two quotes of the masked
line. -/
def Names (n : Nat) (cs : List Char) (r : Reference) : Prop :=
  r.line = n ∧ FirstQuoted r.raw.toList r.column cs

theorem names_reference {cs : List Char} {column : Nat} {piece : Piece}
    (hr : r ∈ (s.reference n column piece).references)
    (hpiece : FirstQuoted piece.text (column + piece.offset) cs) : Names n cs r := by
  obtain rfl := List.mem_singleton.1 hr
  exact ⟨rfl, by simpa using hpiece⟩

theorem names_importFile {cs : List Char} {d : Directive}
    (hd : Leaves cs d.argumentColumn d.argument) (hr : r ∈ (s.importFile n d).references) :
    Names n cs r := by
  unfold importFile at hr
  split at hr
  · rename_i piece hpiece
    exact names_reference hr (hd.firstQuoted (firstQuoted_fileArgument? hpiece))
  · cases hr

theorem quote_not_mem_of_test {column : Nat} {cs : List Char} (h : (s.test n column cs).1 = true) :
    '"' ∉ cs := by
  unfold test Condition.evaluate at h
  cases hparse : Condition.parse cs with
  | ok t => exact Condition.quote_not_mem_of_parse hparse
  | error e => simp [hparse] at h

theorem names_importIf {cs : List Char} {d : Directive} (hd : Leaves cs d.argumentColumn d.argument)
    (hr : r ∈ (s.importIf n d).references) : Names n cs r := by
  unfold importIf at hr
  split at hr
  · rename_i guard piece hargument
    cases hholds : (s.test n (d.argumentColumn + guard.offset) guard.text).1 with
    | true =>
        have hpiece := firstQuoted_guardedArgument? hargument (quote_not_mem_of_test hholds)
        simp only [hholds, if_true, Findings.references_append] at hr
        exact names_reference hr (hd.firstQuoted hpiece)
    | false => simp [hholds] at hr
  · cases hr

theorem mem_references_directive {d : Directive} (hr : r ∈ (s.directive n d).2.references) :
    r ∈ (s.importFile n d).references ∨ r ∈ (s.importIf n d).references := by
  unfold directive at hr
  split at hr
  · exact absurd hr List.not_mem_nil
  · unfold nextBranch at hr
    split at hr
    · cases hr
    · rw [Findings.references_append, List.append_nil] at hr
      split at hr <;> cases hr
  · unfold lastBranch at hr
    split at hr
    · cases hr
    · dsimp only at hr
      split at hr <;> cases hr
  · unfold closeGroup at hr
    split at hr <;> cases hr
  · split at hr
    · cases hr
    · split at hr
      · unfold change at hr
        split at hr <;> cases hr
      · unfold change at hr
        split at hr <;> cases hr
      · exact .inl hr
      · exact .inr hr
      · cases hr
      · cases hr

theorem names_maskedLine {cs : List Char} (hr : r ∈ (s.maskedLine n cs).2.references) :
    Names n cs r := by
  unfold maskedLine at hr
  split at hr
  · rename_i d hd
    rw [Findings.references_append, List.nil_append] at hr
    exact (mem_references_directive hr).elim (names_importFile (leaves_ofLine? hd))
      (names_importIf (leaves_ofLine? hd))
  · unfold codeLine at hr
    split at hr
    · cases hr
    · rw [Findings.references_append, List.append_nil] at hr
      split at hr
      · rename_i piece hpiece
        refine names_reference hr ?_
        rw [Nat.zero_add]
        exact firstQuoted_sourceImport? hpiece
      · cases hr

/-- The file name of an import stands on its line between two quotes. -/
theorem quotedAt_line {line : List Char} (hr : r ∈ (s.line n line).2.references) :
    r.line = n ∧ QuotedAt r.raw.toList r.column line := by
  obtain ⟨hline, hname⟩ := names_maskedLine hr
  refine ⟨hline, hname.quotedAt (masking_maskFrom _ line) ?_⟩
  cases s.inComment <;> decide

end State

end AsmIndex.Source

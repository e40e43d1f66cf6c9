import AsmIndex.Proofs.CodeTokens
import AsmIndex.Proofs.FileNames

/-!
Tokens and imports point at the text they are taken from. A line is masked before it is read, but
what is found in the masked line stands at the same columns of the line itself. The tokens of a
scan do not overlap, and together they lie over all code that counts but the blanks, the comments
and the colons after labels.
-/

namespace AsmIndex.Source

/-- A token ends before another one starts. -/
def Token.Before (t u : Token) : Prop :=
  t.line < u.line ∨ t.line = u.line ∧ t.column < u.column ∧ t.stop ≤ u.column

/-- A token, and the colon that may follow it, end before another token starts. -/
def Token.Ahead (t u : Token) : Prop := t.line < u.line ∨ t.Leads u

theorem Token.Ahead.before {t u : Token} (h : t.Ahead u) : t.Before u :=
  h.imp_right fun ⟨hline, hcolumn, hstop, _⟩ => ⟨hline, hcolumn, hstop⟩

/-- The state before line `n` of a text. -/
def stateBefore (text : String) (incoming : Symbols) (n : Nat) : State :=
  (State.lines { symbols := incoming } 0 ((Text.lines text.toList).take n)).1

/-- The byte belongs to a character `c` of a line of active code, which is neither blank nor part
of a comment. -/
def CodeByte (text : String) (incoming : Symbols) (n offset : Nat) (c : Char) : Prop :=
  let s := stateBefore text incoming n
  ∃ line before after, (Text.lines text.toList)[n]? = some line ∧ s.active = true ∧
    Directive.ofLine? (mask s.inComment line).1 = none ∧
    line = before ++ c :: after ∧ Text.isBlank c = false ∧
    (commentMarks (if s.inComment then .comment else .code) line)[before.length]? = some false ∧
    Text.width before ≤ offset ∧ offset < Text.width before + c.utf8Size

theorem Keyword.name_of_ofName? {word : String} {keyword : Keyword}
    (h : Keyword.ofName? word = some keyword) : keyword.name = word := by
  unfold Keyword.ofName? at h
  split at h <;> cases h <;> rfl

theorem Keyword.solid_name (keyword : Keyword) :
    ' ' ∉ '#' :: keyword.name.toList := by
  cases keyword <;> decide

/-- A text that a token may have stands in the line where it stands in the masked line. -/
theorem standsAt_tokenText {kind : Passage} {line masked before text after : List Char}
    {marks : List Bool} (h : Masking kind line masked marks) (hkind : kind ≠ .literal)
    (hmasked : masked = before ++ (text ++ after)) (heven : before.count '"' % 2 = 0)
    (htext : TokenText text after) : StandsAt text (Text.width before) line := by
  cases htext with
  | solid hsolid =>
      obtain ⟨c, text, rfl⟩ := List.exists_cons_of_ne_nil hsolid.nonempty
      exact h.standsAt (hmasked.trans (List.append_assoc _ _ _).symm) hsolid.noSpace
  | @closed body after hbody =>
      have hclosed : masked = before ++ '"' :: (body ++ '"' :: after) := hmasked.trans (by simp)
      obtain ⟨l₁, l₂, rfl, hwidth⟩ := h.closesLiteral hkind hclosed heven hbody
      exact ⟨l₁, l₂, by simp, hwidth⟩
  | @unclosed body hbody =>
      obtain ⟨l₁, l₂, -, rfl, hwidth, -⟩ := h.opensLiteral hkind hmasked heven hbody
      exact ⟨l₁, l₂, by simp, hwidth⟩

theorem standsAt_directive {kind : Passage} {line masked : List Char} {marks : List Bool}
    {d : Directive} (h : Masking kind line masked marks) (hd : Directive.ofLine? masked = some d) :
    StandsAt ("#" ++ d.keyword.name).toList d.column line := by
  unfold Directive.ofLine? at hd
  dsimp only at hd
  split at hd
  · rename_i rest hrest
    obtain ⟨keyword, hkeyword, rfl⟩ := Option.map_eq_some_iff.1 hd
    have hname : keyword.name.toList = rest.takeWhile Text.isWord := by
      rw [Keyword.name_of_ofName? hkeyword, String.toList_ofList]
    have hsolid := keyword.solid_name
    rw [String.toList_append, hname]
    rw [hname] at hsolid
    have hmasked := masked.takeWhile_append_dropWhile (p := Text.isWhiteSpace)
    rw [hrest, ← rest.takeWhile_append_dropWhile (p := Text.isWord), ← List.cons_append,
      ← List.append_assoc] at hmasked
    exact h.standsAt hmasked.symm hsolid
  · cases hd

namespace State

section Line

variable {s : State} {n : Nat} {line : List Char} {t : Token}

theorem tokens_directive (s : State) (n : Nat) (d : Directive) :
    (s.directive n d).2.tokens = [] := by
  unfold directive
  split
  · rfl
  · unfold nextBranch
    split
    · rfl
    · dsimp only
      split <;> rfl
  · unfold lastBranch
    split
    · rfl
    · dsimp only
      split <;> rfl
  · unfold closeGroup
    split <;> rfl
  · split
    · rfl
    · split
      · unfold change
        split <;> rfl
      · unfold change
        split <;> rfl
      · unfold importFile
        split <;> rfl
      · unfold importIf
        split
        · dsimp only
          rw [Findings.tokens_append]
          split <;> rfl
        · rfl
      · rfl
      · rfl

theorem tokens_maskedLine_directive {cs : List Char} {d : Directive}
    (h : Directive.ofLine? cs = some d) :
    (s.maskedLine n cs).2.tokens = [⟨.directive, "#" ++ d.keyword.name, n, d.column⟩] := by
  simp only [maskedLine, h]
  rw [Findings.tokens_append, tokens_directive, List.append_nil]

theorem tokens_maskedLine_code {cs : List Char} (h : Directive.ofLine? cs = none) :
    (s.maskedLine n cs).2.tokens = if s.active then (codeFrom n 0 0 cs).1 else [] := by
  simp only [maskedLine, codeLine, h]
  cases s.active with
  | false => rfl
  | true =>
      change Findings.tokens (_ ++ _) = _
      rw [Findings.tokens_append]
      split <;> rfl

theorem standsAt_line (ht : t ∈ (s.line n line).2.tokens) :
    t.line = n ∧ StandsAt t.text.toList t.column line := by
  have hmask := masking_maskFrom (if s.inComment then .comment else .code) line
  unfold State.line at ht
  dsimp only at ht
  cases hd : Directive.ofLine? (mask s.inComment line).1 with
  | some d =>
      rw [tokens_maskedLine_directive hd, List.mem_singleton] at ht
      subst ht
      exact ⟨rfl, standsAt_directive hmask hd⟩
  | none =>
      rw [tokens_maskedLine_code hd] at ht
      split at ht
      · obtain ⟨before, text, after, hcs, heven, htext, hshown, hline, hcolumn⟩ :=
          (lexed_codeFrom n 0 _).placed ht
        refine ⟨hline, ?_⟩
        rw [hshown, String.toList_ofList, hcolumn, Nat.zero_add]
        refine standsAt_tokenText hmask ?_ hcs heven htext
        cases s.inComment <;> decide
      · cases ht

theorem pairwise_tokens_line (s : State) (n : Nat) (line : List Char) :
    (s.line n line).2.tokens.Pairwise Token.Leads := by
  unfold State.line
  dsimp only
  cases hd : Directive.ofLine? (mask s.inComment line).1 with
  | some d =>
      rw [tokens_maskedLine_directive hd]
      exact List.pairwise_singleton _ _
  | none =>
      rw [tokens_maskedLine_code hd]
      split
      · exact (lexed_codeFrom n 0 _).pairwise
      · exact .nil

theorem covered_line {before after : List Char} {c : Char} {offset : Nat}
    (hactive : s.active = true) (hcode : Directive.ofLine? (mask s.inComment line).1 = none)
    (hline : line = before ++ c :: after) (hc : Text.isBlank c = false)
    (hmark : (commentMarks (if s.inComment then .comment else .code) line)[before.length]? =
      some false)
    (hlow : Text.width before ≤ offset) (hhigh : offset < Text.width before + c.utf8Size) :
    let ts := (s.line n line).2.tokens
    (∃ t ∈ ts, t.Covers n offset) ∨
      c = ':' ∧ ∃ t ∈ ts, t.kind = .label ∧ t.line = n ∧ t.stop = Text.width before := by
  have hmask := masking_maskFrom (if s.inComment then .comment else .code) line
  obtain ⟨m₁, m₂, hmasked, hwidth⟩ := hmask.outside hline hmark
  have htokens : (s.line n line).2.tokens = (codeFrom n 0 0 (mask s.inComment line).1).1 :=
    (tokens_maskedLine_code hcode).trans (if_pos hactive)
  rw [← hwidth, ← Nat.zero_add (Text.width m₁)] at hlow hhigh ⊢
  rw [htokens]
  exact (lexed_codeFrom n 0 _).covered hmasked hc hlow hhigh

end Line

section Lines

/-- What lines contribute comes from one of them. -/
theorem exists_line_of_mem {α : Type} (f : Findings → List α) (hnil : f {} = [])
    (happend : ∀ g h, f (g ++ h) = f g ++ f h) {x : α} (texts : List (List Char)) (s : State)
    (n : Nat) (hx : x ∈ f (s.lines n texts).2) :
    ∃ i line, ∃ s' : State, texts[i]? = some line ∧ x ∈ f (s'.line (n + i) line).2 := by
  induction texts generalizing s n with
  | nil => simp [lines, hnil] at hx
  | cons cs rest ih =>
      simp only [lines, happend, List.mem_append] at hx
      rcases hx with hx | hx
      · exact ⟨0, cs, s, rfl, hx⟩
      · obtain ⟨i, line, s', hline, hx⟩ := ih _ _ hx
        rw [Nat.add_assoc, Nat.add_comm 1] at hx
        exact ⟨i + 1, line, s', hline, hx⟩

theorem tokens_line_subset {texts : List (List Char)} {line : List Char} {i : Nat}
    (h : texts[i]? = some line) (s : State) (n : Nat) :
    ((s.lines n (texts.take i)).1.line (n + i) line).2.tokens ⊆ (s.lines n texts).2.tokens := by
  induction texts generalizing i s n with
  | nil => simp at h
  | cons cs rest ih =>
      cases i with
      | zero =>
          obtain rfl : cs = line := by simpa using h
          exact List.subset_append_left _ _
      | succ i =>
          have hrest := ih (by simpa using h) (s.line n cs).1 (n + 1)
          rw [Nat.add_assoc, Nat.add_comm 1] at hrest
          exact List.Subset.trans hrest (List.subset_append_right _ _)

theorem le_line_of_mem {texts : List (List Char)} {s : State} {n : Nat} {t : Token}
    (ht : t ∈ (s.lines n texts).2.tokens) : n ≤ t.line := by
  obtain ⟨i, line, s', -, ht⟩ :=
    exists_line_of_mem Findings.tokens rfl (fun _ _ => rfl) _ _ _ ht
  rw [(standsAt_line ht).1]
  exact Nat.le_add_right n i

theorem pairwise_tokens_lines (texts : List (List Char)) (s : State) (n : Nat) :
    (s.lines n texts).2.tokens.Pairwise Token.Ahead := by
  induction texts generalizing s n with
  | nil => exact .nil
  | cons cs rest ih =>
      have hline := (s.pairwise_tokens_line n cs).imp fun h => (.inr h : Token.Ahead _ _)
      refine List.pairwise_append.2 ⟨hline, ih (s.line n cs).1 (n + 1), ?_⟩
      intro t ht u hu
      have hle : n + 1 ≤ u.line := le_line_of_mem hu
      rw [← (standsAt_line ht).1] at hle
      exact .inl hle

end Lines

end State

theorem tokens_scan (text : String) (incoming : Symbols) :
    (scan text incoming).findings.tokens =
      (State.lines { symbols := incoming } 0 (Text.lines text.toList)).2.tokens :=
  List.append_nil _

/-- Two tokens over one byte are the same token, and none lies over the byte after a label. -/
theorem unique_of_covers {ts : List Token} {n offset : Nat}
    (hts : ts.Pairwise Token.Ahead) {t u : Token} (ht : t ∈ ts)
    (hu : u ∈ ts) (hcovers : u.Covers n offset) :
    (t.Covers n offset → t = u) ∧ (t.kind = .label → t.line = n → t.stop ≠ offset) := by
  have horder : t ≠ u → t.Ahead u ∨ u.Ahead t := by
    have : Std.Symm fun t u : Token => t.Ahead u ∨ u.Ahead t := ⟨fun _ _ => Or.symm⟩
    have hsymm : ts.Pairwise fun t u => t.Ahead u ∨ u.Ahead t := hts.imp Or.inl
    exact hsymm.forall ht hu
  obtain ⟨hline, hlow, hhigh⟩ := hcovers
  constructor
  · rintro ⟨htline, htlow, hthigh⟩
    by_contra hne
    rcases horder hne with (hlt | hleads) | hlt | hleads
    · omega
    · have := hleads.2.2.1
      omega
    · omega
    · have := hleads.2.2.1
      omega
  · intro hlabel htline hstop
    have hle : t.column ≤ t.stop := Nat.le_add_right _ _
    rcases horder (by rintro rfl; omega) with (hlt | hleads) | hlt | hleads
    · omega
    · have := hleads.2.2.2 hlabel
      omega
    · omega
    · have := hleads.2.2.1
      omega

/-- Tokens and imports stand in the text, comments and all, at the lines and columns that they give.
Tokens are in order and do not overlap. Each byte of active code that is neither blank nor part of a
comment belongs to exactly one token, but for the colon after a label, which belongs to none. The
names of imports stand between quotes, and no two imports are on one line. -/
theorem tokens_and_imports_stand_in_text (text : String) (incoming : Symbols) :
    let lines := Text.lines text.toList
    let tokens := (scan text incoming).findings.tokens
    let references := (scan text incoming).findings.references
    (∀ t ∈ tokens, ∃ line, lines[t.line]? = some line ∧
      StandsAt t.text.toList t.column line) ∧
    tokens.Pairwise Token.Before ∧
    (∀ n offset c, CodeByte text incoming n offset c →
      if c = ':' ∧ ∃ t ∈ tokens, t.kind = .label ∧ t.line = n ∧ t.stop = offset then
        ∀ t ∈ tokens, ¬ t.Covers n offset
      else ∃! t, t ∈ tokens ∧ t.Covers n offset) ∧
    (∀ r ∈ references, ∃ line, lines[r.line]? = some line ∧
      QuotedAt r.raw.toList r.column line) ∧
    references.Pairwise fun r r' => r.line < r'.line := by
  intro lines tokens references
  have hpairwise : tokens.Pairwise Token.Ahead := by
    rw [show tokens = _ from tokens_scan text incoming]
    exact State.pairwise_tokens_lines _ _ _
  refine ⟨fun t ht => ?_, ?_, fun n offset c hbyte => ?_, fun r hr => ?_, ?_⟩
  · rw [show tokens = _ from tokens_scan text incoming] at ht
    obtain ⟨i, line, s, hline, ht⟩ :=
      State.exists_line_of_mem Findings.tokens rfl (fun _ _ => rfl) _ _ _ ht
    obtain ⟨hn, hstands⟩ := State.standsAt_line ht
    rw [Nat.zero_add] at hn
    exact ⟨line, hn ▸ hline, hstands⟩
  · exact hpairwise.imp Token.Ahead.before
  · obtain ⟨line, before, after, hline, hactive, hcode, hsplit, hc, hmark, hlow, hhigh⟩ :=
      hbyte
    have hcovered := State.covered_line (n := n) hactive hcode hsplit hc hmark hlow hhigh
    have hsubset := State.tokens_line_subset hline { symbols := incoming } 0
    rw [Nat.zero_add, ← tokens_scan] at hsubset
    split_ifs with hcolon
    · obtain ⟨-, t, ht, hlabel, htline, hstop⟩ := hcolon
      exact fun u hu hcovers => (unique_of_covers hpairwise ht hu hcovers).2 hlabel htline hstop
    · rcases hcovered with ⟨t, ht, hcovers⟩ | ⟨rfl, t, ht, hlabel, htline, hstop⟩
      · exact ⟨t, ⟨hsubset ht, hcovers⟩, fun u hu =>
          (unique_of_covers hpairwise hu.1 (hsubset ht) hcovers).1 hu.2⟩
      · have hone : ':'.utf8Size = 1 := rfl
        exact absurd ⟨rfl, t, hsubset ht, hlabel, htline, by omega⟩ hcolon
  · rw [show references = _ from references_scan text incoming] at hr
    obtain ⟨i, line, s, hline, hr⟩ :=
      State.exists_line_of_mem Findings.references rfl (fun _ _ => rfl) _ _ _ hr
    obtain ⟨hn, hquoted⟩ := State.quotedAt_line hr
    rw [Nat.zero_add] at hn
    exact ⟨line, hn ▸ hline, hquoted⟩
  · exact pairwise_line_scan text incoming

def markedText : String :=
  "#import \"a//b\"\nrun: lda \"ü // \" /* é */ %1 // end"

theorem markedText_stands :
    CodeByte markedText Symbols.empty 1 11 'ü' ∧
      (∃! t, t ∈ (scan markedText Symbols.empty).findings.tokens ∧ t.Covers 1 11) := by
  have hbyte : CodeByte markedText Symbols.empty 1 11 'ü' :=
    ⟨"run: lda \"ü // \" /* é */ %1 // end".toList, "run: lda \"".toList,
      " // \" /* é */ %1 // end".toList, by decide +kernel⟩
  have h := (tokens_and_imports_stand_in_text markedText Symbols.empty).2.2.1 1 11 'ü' hbyte
  rw [if_neg (fun hcolon => absurd hcolon.1 (by decide))] at h
  exact ⟨hbyte, h⟩

end AsmIndex.Source

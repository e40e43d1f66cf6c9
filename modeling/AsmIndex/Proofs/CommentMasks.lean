import AsmIndex.Source.Comment
import AsmIndex.Text
import Mathlib.Data.List.TakeWhile

/-!
What masking comments keeps. Each character that is no part of a comment stands in the masked line
where it stands in the line; a character of the masked line other than a space is one of these.
The quotes that are left in the masked line delimit the literals of the line in turn, so that a
quote which an even number of quotes precedes in the masked line opens a literal of the line.
-/

namespace AsmIndex.Source

/-- For each character of a line whether it is part of a comment, where the line starts in a
passage of the given kind. -/
def commentMarks : Passage → List Char → List Bool
  | _, [] => []
  | .comment, '*' :: '/' :: rest => true :: true :: commentMarks .code rest
  | .comment, _ :: rest => true :: commentMarks .comment rest
  | .literal, c :: rest => false :: commentMarks (if c = '"' then .code else .literal) rest
  | .code, '/' :: '/' :: rest => true :: true :: rest.map fun _ => true
  | .code, '/' :: '*' :: rest => true :: true :: commentMarks .comment rest
  | .code, c :: rest => false :: commentMarks (if c = '"' then .literal else .code) rest

/-- The text stands in a line at a byte column. -/
def StandsAt (text : List Char) (column : Nat) (line : List Char) : Prop :=
  ∃ before after, line = before ++ text ++ after ∧ Text.width before = column

/-- The passage after a character that is no part of a comment. -/
def Passage.next : Passage → Char → Passage
  | .literal, c => if c = '"' then .code else .literal
  | _, c => if c = '"' then .literal else .code

/-- A line, what it is masked to, and its marks: characters are kept, or pieces of comments become
as many spaces as they have bytes. No literal goes on before or after a comment. -/
inductive Masking : Passage → List Char → List Char → List Bool → Prop
  | done (kind) : Masking kind [] [] []
  | keep {kind c line masked marks} (outside : kind ≠ .comment)
      (more : Masking (kind.next c) line masked marks) :
      Masking kind (c :: line) (c :: masked) (false :: marks)
  | hide {kind kind' line masked marks} (piece : List Char) (before : kind ≠ .literal)
      (after : kind' ≠ .literal)
      (more : Masking kind' line masked marks) :
      Masking kind (piece ++ line) (List.replicate (Text.width piece) ' ' ++ masked)
        (List.replicate piece.length true ++ marks)

theorem flatMap_blanks (cs : List Char) :
    cs.flatMap blanks = List.replicate (Text.width cs) ' ' := by
  induction cs with
  | nil => rfl
  | cons c rest ih =>
      rw [List.flatMap_cons, ih, blanks, Text.width_cons, List.replicate_append_replicate]

theorem width_spaces (k : Nat) : Text.width (List.replicate k ' ') = k := by
  induction k with
  | zero => rfl
  | succ k ih =>
      have hspace : ' '.utf8Size = 1 := rfl
      rw [List.replicate_succ, Text.width_cons, ih, hspace]
      omega

theorem width_eq_zero {cs : List Char} (h : Text.width cs = 0) : cs = [] := by
  cases cs with
  | nil => rfl
  | cons c rest =>
      have hpos := c.utf8Size_pos
      rw [Text.width_cons] at h
      omega

theorem quote_not_mem_takeWhile (cs : List Char) : '"' ∉ cs.takeWhile (· != '"') := by
  intro hmem
  simpa using List.mem_takeWhile_imp hmem

/-- The character at which one stops looking for a quote is a quote. -/
theorem eq_of_dropWhile_quote {cs after : List Char} {d : Char}
    (h : cs.dropWhile (· != '"') = d :: after) :
    cs = cs.takeWhile (· != '"') ++ '"' :: after := by
  have hd : d = '"' := by
    have hhead := List.head?_dropWhile_not (· != '"') cs
    simpa [h] using hhead
  rw [hd] at h
  rw [← h, List.takeWhile_append_dropWhile]

theorem masking_maskFrom (kind : Passage) (line : List Char) :
    Masking kind line (maskFrom kind line).1 (commentMarks kind line) := by
  fun_induction commentMarks kind line with
  | case1 kind => exact .done kind
  | case2 rest ih =>
      rw [maskFrom]
      exact .hide ['*', '/'] (by decide) (by decide) ih
  | case3 c rest hend ih =>
      rw [maskFrom.eq_3 c rest hend]
      have h : Masking .comment ([c] ++ rest) _ _ := .hide [c] (by decide) (by decide) ih
      simpa [blanks] using h
  | case4 c rest ih =>
      rw [maskFrom]
      exact .keep (by decide) ih
  | case5 rest =>
      rw [maskFrom, flatMap_blanks]
      have h : Masking .code ('/' :: '/' :: rest ++ []) _ _ :=
        .hide ('/' :: '/' :: rest) (by decide) (by decide) (.done .code)
      have hslash : '/'.utf8Size = 1 := rfl
      have hwidth : Text.width ('/' :: '/' :: rest) = Text.width rest + 1 + 1 := by
        simp only [Text.width_cons, hslash]
        omega
      rw [hwidth, List.replicate_succ, List.replicate_succ] at h
      simpa [List.map_const', List.replicate_succ] using h
  | case6 rest ih =>
      rw [maskFrom]
      exact .hide ['/', '*'] (by decide) (by decide) ih
  | case7 c rest hline hblock ih =>
      rw [maskFrom.eq_7 c rest hline hblock]
      exact .keep (by decide) ih

/-- A character of an appended text stands in its second part or in its first. -/
theorem append_eq_append_cons {xs ys before after : List Char} {c : Char}
    (h : xs ++ ys = before ++ c :: after) :
    (∃ before', before = xs ++ before' ∧ ys = before' ++ c :: after) ∨
      ∃ after', xs = before ++ c :: after' := by
  rcases List.append_eq_append_iff.1 h with ⟨before', hb, hy⟩ | ⟨after', hx, hc⟩
  · exact .inl ⟨before', hb, hy⟩
  · cases after' with
    | nil => exact .inl ⟨[], by simpa using hx.symm, by simpa using hc.symm⟩
    | cons d after' =>
        obtain ⟨rfl, -⟩ := List.cons.inj hc
        exact .inr ⟨after', hx⟩

theorem Passage.next_eq_literal (kind : Passage) (c : Char) :
    kind.next c = .literal ↔ (kind = .literal ↔ c ≠ '"') := by
  cases kind <;> by_cases hc : c = '"' <;> simp [Passage.next, hc]

namespace Masking

variable {kind : Passage} {line masked : List Char} {marks : List Bool}

/-- A character outside comments stands in the masked line at its own place. -/
theorem outside (h : Masking kind line masked marks) {before after : List Char} {c : Char}
    (hline : line = before ++ c :: after) (hmark : marks[before.length]? = some false) :
    ∃ m₁ m₂, masked = m₁ ++ c :: m₂ ∧ Text.width m₁ = Text.width before := by
  induction h generalizing before with
  | done kind => simp at hmark
  | @keep kind d line masked marks _ _ ih =>
      cases before with
      | nil =>
          obtain ⟨rfl, rfl⟩ := List.cons.inj hline
          exact ⟨[], masked, rfl, rfl⟩
      | cons b before =>
          rw [List.cons_append, List.cons.injEq] at hline
          obtain ⟨m₁, m₂, rfl, hwidth⟩ := ih hline.2 (by simpa using hmark)
          exact ⟨d :: m₁, m₂, rfl, by simp [hline.1, hwidth]⟩
  | @hide kind kind' line masked marks piece _ _ _ ih =>
      rcases append_eq_append_cons hline with ⟨before, rfl, hrest⟩ | ⟨after', rfl⟩
      · obtain ⟨m₁, m₂, rfl, hwidth⟩ :=
          ih hrest (by simpa [List.getElem?_append_right] using hmark)
        refine ⟨List.replicate (Text.width piece) ' ' ++ m₁, m₂, by simp, ?_⟩
        rw [Text.width_append, width_spaces, hwidth, Text.width_append]
      · -- every mark of the piece is `true`
        rw [List.getElem?_append_left (by simp)] at hmark
        simp at hmark

/-- A character of the masked line that is no space stands in the line at the same place, and the
line is masked alike after it. -/
theorem split (h : Masking kind line masked marks) {m₁ m₂ : List Char} {c : Char}
    (hmasked : masked = m₁ ++ c :: m₂) (hc : c ≠ ' ') :
    ∃ l₁ l₂, ∃ kind' : Passage, ∃ marks', line = l₁ ++ c :: l₂ ∧
      Text.width l₁ = Text.width m₁ ∧
      Masking (kind'.next c) l₂ m₂ marks' ∧
      (kind' = .literal ↔ (kind = .literal ↔ m₁.count '"' % 2 = 0)) := by
  induction h generalizing m₁ with
  | done kind => simp at hmasked
  | @keep kind d line masked marks _ more ih =>
      cases m₁ with
      | nil =>
          obtain ⟨rfl, rfl⟩ := List.cons.inj hmasked
          exact ⟨[], line, kind, marks, rfl, rfl, more, by simp⟩
      | cons e m₁ =>
          rw [List.cons_append, List.cons.injEq] at hmasked
          obtain ⟨rfl, hmasked⟩ := hmasked
          obtain ⟨l₁, l₂, kind', marks', rfl, hwidth, hmore, hquotes⟩ := ih hmasked
          refine ⟨d :: l₁, l₂, kind', marks', rfl, by simp [hwidth], hmore, ?_⟩
          rw [hquotes, Passage.next_eq_literal, List.count_cons]
          by_cases hd : d = '"'
          · have hparity : (m₁.count '"' + 1) % 2 = 0 ↔ ¬ m₁.count '"' % 2 = 0 := by omega
            by_cases hk : kind = .literal <;> simp [hd, hk, hparity]
          · simp [hd]
  | @hide kind kind' line masked marks piece before after _ ih =>
      rcases append_eq_append_cons hmasked with ⟨m₁, rfl, hrest⟩ | ⟨after', hspaces⟩
      · obtain ⟨l₁, l₂, kind', marks', rfl, hwidth, hmore, hquotes⟩ := ih hrest
        refine ⟨piece ++ l₁, l₂, kind', marks', by simp, ?_, hmore, ?_⟩
        · rw [Text.width_append, Text.width_append, width_spaces, hwidth]
        · rw [hquotes, List.count_append, List.count_replicate]
          simp [before, after]
      · have hmem : c ∈ List.replicate (Text.width piece) ' ' := hspaces ▸ by simp
        exact absurd (List.eq_of_mem_replicate hmem) hc

/-- A text of the masked line without spaces is a text of the line. -/
theorem append_of_no_space {x rest : List Char} (h : Masking kind line masked marks)
    (hmasked : masked = x ++ rest) (hx : ' ' ∉ x) : ∃ line', line = x ++ line' := by
  induction x generalizing kind line masked marks with
  | nil => exact ⟨line, rfl⟩
  | cons c x ih =>
      rw [List.mem_cons, not_or] at hx
      have hhead : masked = [] ++ c :: (x ++ rest) := hmasked
      obtain ⟨l₁, l₂, kind', marks', rfl, hwidth, more, -⟩ := h.split hhead (Ne.symm hx.1)
      obtain ⟨line', rfl⟩ := ih more rfl hx.2
      rw [width_eq_zero hwidth]
      exact ⟨line', rfl⟩

/-- Inside a literal nothing is masked up to the next quote. -/
theorem literal_append {line masked : List Char} {marks : List Bool} {body rest : List Char}
    (h : Masking .literal line masked marks) (hmasked : masked = body ++ rest)
    (hbody : '"' ∉ body) :
    ∃ line' marks', line = body ++ line' ∧ Masking .literal line' rest marks' := by
  induction body generalizing line masked marks with
  | nil =>
      subst hmasked
      exact ⟨line, marks, rfl, h⟩
  | cons c body ih =>
      rw [List.mem_cons, not_or] at hbody
      cases h with
      | done => simp at hmasked
      | keep _ more =>
          rw [List.cons_append, List.cons.injEq] at hmasked
          obtain ⟨rfl, hrest⟩ := hmasked
          rw [(Passage.next_eq_literal .literal _).2 (by simpa [eq_comm] using hbody.1)] at more
          obtain ⟨line', marks', rfl, hmore⟩ := ih more hrest hbody.2
          exact ⟨line', marks', rfl, hmore⟩
      | hide piece before => exact absurd rfl before

variable {m₁ m₂ : List Char}

theorem standsAt {x : List Char} {c : Char} (h : Masking kind line masked marks)
    (hmasked : masked = m₁ ++ c :: x ++ m₂) (hx : ' ' ∉ c :: x) :
    StandsAt (c :: x) (Text.width m₁) line := by
  rw [List.mem_cons, not_or] at hx
  rw [List.append_assoc, List.cons_append] at hmasked
  obtain ⟨l₁, l₂, kind', marks', rfl, hwidth, more, -⟩ := h.split hmasked (Ne.symm hx.1)
  obtain ⟨l₃, rfl⟩ := more.append_of_no_space rfl hx.2
  exact ⟨l₁, l₃, by simp, hwidth⟩

/-- A quote of the masked line that an even number of quotes precedes opens a literal of the
line. -/
theorem opensLiteral {body : List Char} (h : Masking kind line masked marks)
    (hkind : kind ≠ .literal) (hmasked : masked = m₁ ++ '"' :: (body ++ m₂))
    (heven : m₁.count '"' % 2 = 0) (hbody : '"' ∉ body) :
    ∃ l₁ l₂ marks', line = l₁ ++ '"' :: (body ++ l₂) ∧
      Text.width l₁ = Text.width m₁ ∧
      Masking .literal l₂ m₂ marks' := by
  obtain ⟨l₁, l₂, kind', marks', rfl, hwidth, more, hquotes⟩ := h.split hmasked (by decide)
  have hopen : kind'.next '"' = .literal := by
    rw [Passage.next_eq_literal, hquotes]
    simp [hkind, heven]
  rw [hopen] at more
  obtain ⟨l₃, marks'', rfl, hrest⟩ := more.literal_append rfl hbody
  exact ⟨l₁, l₃, marks'', rfl, hwidth, hrest⟩

theorem closesLiteral {body : List Char} (h : Masking kind line masked marks)
    (hkind : kind ≠ .literal) (hmasked : masked = m₁ ++ '"' :: (body ++ '"' :: m₂))
    (heven : m₁.count '"' % 2 = 0) (hbody : '"' ∉ body) :
    ∃ l₁ l₂, line = l₁ ++ '"' :: (body ++ '"' :: l₂) ∧
      Text.width l₁ = Text.width m₁ := by
  obtain ⟨l₁, l₂, marks', rfl, hwidth, more⟩ := h.opensLiteral hkind hmasked heven hbody
  have hquote : '"' :: m₂ = ['"'] ++ m₂ := rfl
  obtain ⟨l₃, rfl⟩ := more.append_of_no_space hquote (by decide)
  exact ⟨l₁, l₃, rfl, hwidth⟩

end Masking

end AsmIndex.Source

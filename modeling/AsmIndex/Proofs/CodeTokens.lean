import AsmIndex.Proofs.CommentMasks
import AsmIndex.Source.Token
import Mathlib.Data.List.Basic
import Mathlib.Data.List.TakeWhile

/-!
How the tokens of a line of code lie in it. From the left, the line is made of blanks, of tokens,
and of the colons after labels. A token that starts with a quote is a literal; no other token has
a quote or a space in it, so an even number of quotes stands before every token.
-/

namespace AsmIndex.Source

/-- The byte column after a token. -/
def Token.stop (t : Token) : Nat := t.column + Text.width t.text.toList

theorem Token.stop_mk (kind : TokenKind) (text : List Char) (n column : Nat) :
    Token.stop ⟨kind, String.ofList text, n, column⟩ = column + Text.width text := by
  rw [Token.stop, String.toList_ofList]

/-- The token lies over a byte of a line. -/
def Token.Covers (t : Token) (line offset : Nat) : Prop :=
  t.line = line ∧ t.column ≤ offset ∧ offset < t.stop

/-- A text with neither spaces nor quotes. -/
structure Solid (text : List Char) : Prop where
  nonempty : text ≠ []
  noSpace : ' ' ∉ text
  noQuote : '"' ∉ text

/-- The text of a token, which stands before `after`: a literal lacks its closing quote only at
the end. -/
inductive TokenText : List Char → List Char → Prop
  | solid {text after} (h : Solid text) : TokenText text after
  | closed {body after} (h : '"' ∉ body) : TokenText ('"' :: (body ++ ['"'])) after
  | unclosed {body} (h : '"' ∉ body) : TokenText ('"' :: body) []

/-- The tokens of the code on line `n` from a column on. -/
inductive Lexed (n : Nat) : Nat → List Char → List Token → Prop
  | done {column} : Lexed n column [] []
  | blank {column c cs ts} (h : Text.isBlank c = true)
      (more : Lexed n (column + c.utf8Size) cs ts) :
      Lexed n column (c :: cs) ts
  | token {column kind text cs ts} (hkind : kind ≠ .label) (htext : TokenText text cs)
      (more : Lexed n (column + Text.width text) cs ts) :
      Lexed n column (text ++ cs) (⟨kind, String.ofList text, n, column⟩ :: ts)
  | label {column text cs ts} (htext : Solid text)
      (more : Lexed n (column + Text.width text + 1) cs ts) :
      Lexed n column (text ++ ':' :: cs) (⟨.label, String.ofList text, n, column⟩ :: ts)

theorem TokenText.width_pos {text after : List Char} (h : TokenText text after) :
    0 < Text.width text := by
  have hquote : '"'.utf8Size = 1 := rfl
  cases h with
  | solid h =>
      obtain ⟨c, rest, rfl⟩ := List.exists_cons_of_ne_nil h.nonempty
      have hpos := c.utf8Size_pos
      rw [Text.width_cons]
      omega
  | closed h | unclosed h =>
      rw [Text.width_cons]
      omega

theorem TokenText.even_quotes {text after : List Char} (h : TokenText text after) :
    text.count '"' % 2 = 0 ∨ after = [] := by
  cases h with
  | solid h => exact .inl (by rw [List.count_eq_zero.2 h.noQuote])
  | @closed body after h => exact .inl (by simp [List.count_eq_zero.2 h])
  | unclosed h => exact .inr rfl

/-- One character, and after it characters of a class that has neither space nor quote. -/
theorem solid_cons_takeWhile {c : Char} (p : Char → Bool) (rest : List Char) (hspace : c ≠ ' ')
    (hquote : c ≠ '"') (hp : p ' ' = false) (hq : p '"' = false) :
    Solid (c :: rest.takeWhile p) := by
  have hnot : ∀ d, c ≠ d → p d = false → d ∉ c :: rest.takeWhile p := by
    intro d hd hpd hmem
    rcases List.mem_cons.1 hmem with rfl | hmem
    · exact hd rfl
    · exact Bool.false_ne_true (hpd.symm.trans (List.mem_takeWhile_imp hmem))
  exact ⟨by simp, hnot ' ' hspace hp, hnot '"' hquote hq⟩

/-- What a munch takes off `c :: rest`: a token, or a label before its colon. -/
inductive Munch.Takes (m : Munch) (c : Char) : List Char → Prop
  | token {tail after} (hlength : m.length = tail.length + 1) (hcolon : m.colon = false)
      (hkind : m.kind ≠ .label) (htext : TokenText (c :: tail) after) : m.Takes c (tail ++ after)
  | label {tail after} (hlength : m.length = tail.length + 1) (hcolon : m.colon = true)
      (hkind : m.kind = .label) (htext : Solid (c :: tail)) : m.Takes c (tail ++ ':' :: after)

section Munch

variable {c : Char} {rest : List Char}

theorem takes_class (p : Char → Bool) {kind : TokenKind} (hkind : kind ≠ .label)
    (hsolid : Solid (c :: rest.takeWhile p)) :
    ({ kind, length := (rest.takeWhile p).length + 1 } : Munch).Takes c rest := by
  have h : ({ kind, length := (rest.takeWhile p).length + 1 } : Munch).Takes c
      (rest.takeWhile p ++ rest.dropWhile p) := .token rfl rfl hkind (.solid hsolid)
  rwa [List.takeWhile_append_dropWhile] at h

theorem drop_length_takeWhile (p : Char → Bool) (cs : List Char) :
    cs.drop (cs.takeWhile p).length = cs.dropWhile p := by
  have h := congrArg (List.drop (cs.takeWhile p).length)
    (List.takeWhile_append_dropWhile (p := p) (l := cs))
  rw [List.drop_left] at h
  exact h.symm

theorem takes_literal : (Munch.at '"' rest).Takes '"' rest := by
  rw [Munch.at, if_pos rfl]
  dsimp only
  have hbody := quote_not_mem_takeWhile rest
  cases hafter : rest.dropWhile (· != '"') with
  | nil =>
      have hall := rest.takeWhile_append_dropWhile (p := (· != '"'))
      rw [hafter, List.append_nil] at hall
      rw [hall] at hbody ⊢
      rw [if_neg (Nat.lt_irrefl _)]
      have h : Munch.Takes ⟨.literal, rest.length + 1, false, false⟩ '"' (rest ++ []) :=
        .token rfl rfl (by simp) (.unclosed hbody)
      rwa [List.append_nil] at h
  | cons d after =>
      have hrest := eq_of_dropWhile_quote hafter
      generalize rest.takeWhile (· != '"') = body at hbody hrest ⊢
      subst hrest
      rw [if_pos (by simp), ← List.singleton_append, ← List.append_assoc]
      exact .token (by simp) rfl (by simp) (.closed hbody)

theorem takes_at (hc : Text.isBlank c = false) : (Munch.at c rest).Takes c rest := by
  by_cases hquote : c = '"'
  · exact hquote ▸ takes_literal
  have hspace : c ≠ ' ' := by
    rintro rfl
    exact absurd hc (by decide)
  have hsolid : ∀ p : Char → Bool, p ' ' = false → p '"' = false →
      Solid (c :: rest.takeWhile p) :=
    fun p hp hq => solid_cons_takeWhile p rest hspace hquote hp hq
  rw [Munch.at, if_neg hquote]
  split_ifs
  · exact takes_class isHexDigit (by decide) (hsolid _ (by decide) (by decide))
  · exact takes_class isBinaryDigit (by decide) (hsolid _ (by decide) (by decide))
  · exact takes_class _ (by decide) (hsolid _ (by decide) (by decide))
  · exact takes_class Text.isIdentPart (by decide) (hsolid _ (by decide) (by decide))
  · have hident := hsolid Text.isIdentPart (by decide) (by decide)
    dsimp only
    rw [drop_length_takeWhile]
    split_ifs with hcolon
    · obtain ⟨after, hafter⟩ := List.head?_eq_some_iff.1 hcolon
      have hsplit := rest.takeWhile_append_dropWhile (p := Text.isIdentPart)
      generalize rest.takeWhile Text.isIdentPart = tail at hident hsplit ⊢
      rw [← hsplit, hafter]
      exact .label rfl rfl rfl hident
    · exact takes_class Text.isIdentPart (by decide) hident
  · have hone : Solid [c] :=
      ⟨by simp, by simpa using Ne.symm hspace, by simpa using Ne.symm hquote⟩
    have h : ({ kind := .punctuation, length := 1 } : Munch).Takes c ([] ++ rest) :=
      .token rfl rfl (by decide) (.solid hone)
    exact h

end Munch

theorem codeFrom_skip (n column : Nat) (xs cs : List Char) :
    codeFrom n xs.length column (xs ++ cs) = codeFrom n 0 (column + Text.width xs) cs := by
  induction xs generalizing column with
  | nil => rfl
  | cons c xs ih =>
      rw [List.cons_append, List.length_cons, codeFrom, ih, Text.width_cons, Nat.add_assoc]

theorem codeFrom_blank {c : Char} (hc : Text.isBlank c = true) (n column : Nat)
    (rest : List Char) :
    codeFrom n 0 column (c :: rest) = codeFrom n 0 (column + c.utf8Size) rest := by
  rw [codeFrom, if_pos hc]

/-- The first token of a text that does not start with a blank. -/
theorem codeFrom_cons {c : Char} (hc : Text.isBlank c = false) (n column : Nat)
    (rest : List Char) :
    let munch := Munch.at c rest
    let taken := if munch.colon then munch.length else munch.length - 1
    (codeFrom n 0 column (c :: rest)).1 =
      ⟨munch.kind, String.ofList ((c :: rest).take munch.length), n, column⟩ ::
        (codeFrom n taken (column + c.utf8Size) rest).1 := by
  rw [codeFrom, if_neg (by simp [hc])]

theorem lexed_codeFrom (n column : Nat) (cs : List Char) :
    Lexed n column cs (codeFrom n 0 column cs).1 := by
  induction hlength : cs.length using Nat.strongRecOn generalizing column cs with
  | ind length ih =>
      subst hlength
      cases cs with
      | nil => exact .done
      | cons c rest =>
          by_cases hc : Text.isBlank c = true
          · rw [codeFrom_blank hc]
            exact .blank hc (ih _ (by simp) _ _ rfl)
          · rw [Bool.not_eq_true] at hc
            rw [codeFrom_cons hc]
            generalize hmunch : Munch.at c rest = munch
            have htakes : munch.Takes c rest := hmunch ▸ takes_at hc
            cases htakes with
            | @token tail after hlength hcolon hkind htext =>
                have htake : (c :: (tail ++ after)).take munch.length = c :: tail := by
                  simp [hlength]
                rw [htake, hcolon, hlength, if_neg (by decide), Nat.add_sub_cancel, codeFrom_skip,
                  Nat.add_assoc, ← Text.width_cons]
                have hshorter : after.length < (c :: (tail ++ after)).length := by
                  rw [List.length_cons, List.length_append]
                  omega
                exact .token hkind htext (ih _ hshorter _ _ rfl)
            | @label tail after hlength hcolon hkind htext =>
                have htake : (c :: (tail ++ ':' :: after)).take munch.length = c :: tail := by
                  simp [hlength]
                have hmore : codeFrom n munch.length (column + c.utf8Size) (tail ++ ':' :: after) =
                    codeFrom n 0 (column + Text.width (c :: tail) + 1) after := by
                  have hcolumn : column + Text.width (c :: tail) + 1 =
                      column + c.utf8Size + Text.width (tail ++ [':']) := by
                    have hone : ':'.utf8Size = 1 := rfl
                    simp only [Text.width_append, Text.width_cons, Text.width_nil, hone]
                    omega
                  have hskip := codeFrom_skip n (column + c.utf8Size) (tail ++ [':']) after
                  rwa [List.append_assoc, List.length_append, ← hcolumn, List.length_singleton,
                    ← hlength] at hskip
                rw [htake, hcolon, if_pos rfl, hkind, hmore]
                have hshorter : after.length < (c :: (tail ++ ':' :: after)).length := by
                  rw [List.length_cons, List.length_append, List.length_cons]
                  omega
                exact .label htext (ih _ hshorter _ _ rfl)

/-- On the line of `t`, a token `u` comes after it and after the colon that may follow it. -/
def Token.Leads (t u : Token) : Prop :=
  t.line = u.line ∧ t.column < u.column ∧ t.stop ≤ u.column ∧
    (t.kind = .label → t.stop < u.column)

namespace Lexed

variable {n column : Nat} {cs : List Char} {ts : List Token} {t : Token}

/-- Each token is a text of the line, which an even number of quotes precedes. -/
theorem placed (h : Lexed n column cs ts) (ht : t ∈ ts) :
    ∃ before text after, cs = before ++ (text ++ after) ∧ before.count '"' % 2 = 0 ∧
      TokenText text after ∧ t.text = String.ofList text ∧ t.line = n ∧
      t.column = column + Text.width before := by
  induction h with
  | done => cases ht
  | @blank column c cs ts hc _ ih =>
      obtain ⟨before, text, after, rfl, hquotes, htext, hshown, hline, hcolumn⟩ := ih ht
      refine ⟨c :: before, text, after, rfl, ?_, htext, hshown, hline, ?_⟩
      · have hne : c ≠ '"' := by
          rintro rfl
          exact absurd hc (by decide)
        simpa [List.count_cons, hne] using hquotes
      · rw [hcolumn, Text.width_cons, Nat.add_assoc]
  | @token column kind text cs ts hkind htext more ih =>
      rcases List.mem_cons.1 ht with rfl | ht
      · exact ⟨[], text, cs, rfl, rfl, htext, rfl, rfl, rfl⟩
      · obtain ⟨before, text', after, rfl, hquotes, htext', hshown, hline, hcolumn⟩ := ih ht
        refine ⟨text ++ before, text', after, by simp, ?_, htext', hshown, hline, ?_⟩
        · rcases htext.even_quotes with heven | hnil
          · rw [List.count_append]
            omega
          · -- nothing follows an unclosed literal
            obtain ⟨-, rfl, -⟩ : before = [] ∧ text' = [] ∧ after = [] := by
              simpa using hnil
            exact absurd htext'.width_pos (Nat.lt_irrefl 0)
        · rw [hcolumn, Text.width_append, Nat.add_assoc]
  | @label column text cs ts htext more ih =>
      rcases List.mem_cons.1 ht with rfl | ht
      · exact ⟨[], text, ':' :: cs, rfl, rfl, .solid htext, rfl, rfl, rfl⟩
      · obtain ⟨before, text', after, rfl, hquotes, htext', hshown, hline, hcolumn⟩ := ih ht
        refine ⟨text ++ ':' :: before, text', after, by simp, ?_, htext', hshown, hline, ?_⟩
        · simpa [List.count_eq_zero.2 htext.noQuote] using hquotes
        · have hone : ':'.utf8Size = 1 := rfl
          rw [hcolumn, Text.width_append, Text.width_cons, hone]
          omega

theorem le_column (h : Lexed n column cs ts) (ht : t ∈ ts) :
    t.line = n ∧ column ≤ t.column := by
  obtain ⟨before, -, -, -, -, -, -, hline, hcolumn⟩ := h.placed ht
  exact ⟨hline, hcolumn ▸ Nat.le_add_right _ _⟩

theorem pairwise (h : Lexed n column cs ts) : ts.Pairwise Token.Leads := by
  induction h with
  | done => exact .nil
  | blank _ _ ih => exact ih
  | @token column kind text cs ts hkind htext more ih =>
      refine List.pairwise_cons.2 ⟨fun u hu => ?_, ih⟩
      obtain ⟨hline, hle⟩ := more.le_column hu
      have hpos := htext.width_pos
      have hstop := Token.stop_mk kind text n column
      exact ⟨hline.symm, by dsimp only; omega, hstop ▸ hle, fun h => absurd h hkind⟩
  | @label column text cs ts htext more ih =>
      refine List.pairwise_cons.2 ⟨fun u hu => ?_, ih⟩
      obtain ⟨hline, hle⟩ := more.le_column hu
      have hstop := Token.stop_mk .label text n column
      refine ⟨hline.symm, ?_, ?_, fun _ => ?_⟩
      · dsimp only
        omega
      · omega
      · omega

theorem covers_of_text {kind : TokenKind} {before after : List Char} {c : Char} {offset : Nat}
    (hlow : column + Text.width before ≤ offset)
    (hhigh : offset < column + Text.width before + c.utf8Size) :
    Token.Covers ⟨kind, String.ofList (before ++ c :: after), n, column⟩ n offset := by
  refine ⟨rfl, ?_, ?_⟩
  · dsimp only
    omega
  · rw [Token.stop_mk, Text.width_append, Text.width_cons]
    omega

/-- A character that is not blank is part of a token, or the colon after a label. -/
theorem covered (h : Lexed n column cs ts) {before after : List Char} {c : Char} {offset : Nat}
    (hcs : cs = before ++ c :: after) (hc : Text.isBlank c = false)
    (hlow : column + Text.width before ≤ offset)
    (hhigh : offset < column + Text.width before + c.utf8Size) :
    (∃ t ∈ ts, t.Covers n offset) ∨
      c = ':' ∧ ∃ t ∈ ts, t.kind = .label ∧ t.line = n ∧
      t.stop = column + Text.width before := by
  induction h generalizing before with
  | done => simp at hcs
  | @blank column d cs ts hd _ ih =>
      cases before with
      | nil =>
          obtain ⟨rfl, -⟩ := List.cons.inj hcs
          exact absurd hd (by simp [hc])
      | cons d' before =>
          rw [List.cons_append, List.cons.injEq] at hcs
          obtain ⟨rfl, hrest⟩ := hcs
          rw [Text.width_cons, ← Nat.add_assoc] at hlow hhigh ⊢
          exact ih hrest hlow hhigh
  | @token column kind text cs ts hkind htext more ih =>
      rcases append_eq_append_cons hcs with ⟨before, rfl, hrest⟩ | ⟨after', rfl⟩
      · rw [Text.width_append, ← Nat.add_assoc] at hlow hhigh ⊢
        exact (ih hrest hlow hhigh).imp List.exists_mem_cons_of_exists
          (And.imp_right List.exists_mem_cons_of_exists)
      · exact .inl ⟨_, List.mem_cons_self, covers_of_text hlow hhigh⟩
  | @label column text cs ts htext more ih =>
      rcases append_eq_append_cons hcs with ⟨before, rfl, hrest⟩ | ⟨after', rfl⟩
      · rw [Text.width_append, ← Nat.add_assoc] at hlow hhigh ⊢
        cases before with
        | nil =>
            obtain ⟨rfl, -⟩ := List.cons.inj hrest
            exact .inr ⟨rfl, _, List.mem_cons_self, rfl, rfl, Token.stop_mk _ _ _ _⟩
        | cons d before =>
            rw [List.cons_append, List.cons.injEq] at hrest
            obtain ⟨rfl, hrest⟩ := hrest
            have hone : ':'.utf8Size = 1 := rfl
            rw [Text.width_cons, hone, ← Nat.add_assoc] at hlow hhigh ⊢
            exact (ih hrest hlow hhigh).imp List.exists_mem_cons_of_exists
              (And.imp_right List.exists_mem_cons_of_exists)
      · exact .inl ⟨_, List.mem_cons_self, covers_of_text hlow hhigh⟩

end Lexed

end AsmIndex.Source

import AsmIndex.Condition.Lexeme
import Mathlib.Data.List.Chain
import Mathlib.Data.List.TakeWhile

/-!
The spellings of a list of lexemes: their texts in order, with blanks before, between and after
them as one likes, each name being an identifier that is taken as long as possible. Every text
spells the lexemes that are read from it. In a list that alternates, as conditions do, between
what ends an operand and what starts one, no lexeme runs into the next one; such a list is what is
read from each of its spellings.
-/

namespace AsmIndex.Condition

/-- A letter or underscore, then letters, digits and underscores. -/
def IsIdent (text : List Char) : Prop :=
  ∃ c rest, text = c :: rest ∧ Text.isIdentStart c = true ∧
    ∀ d ∈ rest, Text.isIdentPart d = true

namespace Lexeme

/-- A name is an identifier that does not go on in the text after it. -/
def Fits : Lexeme → List Char → Prop
  | name text, after => IsIdent text ∧ ∀ c ∈ after.head?, Text.isIdentPart c = false
  | _, _ => True

def startsOperand : Lexeme → Bool
  | name _ | bang | opening => true
  | _ => false

def endsOperand : Lexeme → Bool
  | name _ | closing => true
  | _ => false

/-- An operand starts exactly where none has just ended. -/
def Precedes (a b : Lexeme) : Prop := b.startsOperand = !a.endsOperand

end Lexeme

/-- A text is made of lexemes, with blanks around them. -/
inductive Spells : List Lexeme → List Char → Prop
  | done {blanks} (blank : ∀ c ∈ blanks, Text.isBlank c = true) : Spells [] blanks
  | next {blanks l ls after} (blank : ∀ c ∈ blanks, Text.isBlank c = true) (fits : l.Fits after)
      (more : Spells ls after) : Spells (l :: ls) (blanks ++ l.text ++ after)

section Reading

variable {c : Char} {cs rest tail after : List Char} {l : Lexeme} {ls : List Lexeme}

theorem Spells.cons_blank (h : Spells ls cs) (hc : Text.isBlank c = true) :
    Spells ls (c :: cs) := by
  cases h with
  | done blank => exact .done (by simpa [hc] using blank)
  | @next blanks l ls after blank fits more =>
      have hnext : Spells (l :: ls) ((c :: blanks) ++ l.text ++ after) :=
        .next (by simpa [hc] using blank) fits more
      simpa using hnext

theorem lexemesFrom_skip (cs : List Char) (skip offset : Nat) :
    lexemesFrom skip offset cs =
      lexemesFrom 0 (offset + Text.width (cs.take skip)) (cs.drop skip) := by
  induction cs generalizing skip offset with
  | nil => simp [lexemesFrom]
  | cons c rest ih =>
      cases skip with
      | zero => simp
      | succ skip =>
          rw [lexemesFrom, ih skip]
          simp [Nat.add_assoc]

theorem lexemesFrom_blank (hc : Text.isBlank c = true) (offset : Nat) (rest : List Char) :
    lexemesFrom 0 offset (c :: rest) = lexemesFrom 0 (offset + c.utf8Size) rest := by
  simp [lexemesFrom, hc]

/-- The first lexeme of a text that does not start with a blank, and the lexemes of what follows
it. -/
theorem lexemesFrom_cons (hc : Text.isBlank c = false) (offset : Nat)
    (htext : (Lexeme.at c (tail ++ after)).text = c :: tail) :
    lexemesFrom 0 offset (c :: (tail ++ after)) =
      ⟨offset, Lexeme.at c (tail ++ after)⟩ ::
        lexemesFrom 0 (offset + c.utf8Size + Text.width tail) after := by
  have hskip : (Lexeme.at c (tail ++ after)).text.length - 1 = tail.length := by simp [htext]
  simp only [lexemesFrom, hc, Bool.false_eq_true, if_false, hskip]
  rw [lexemesFrom_skip]
  simp

/-- The first lexeme of a text is a piece of the text, and what follows does not belong to it. -/
theorem exists_at (c : Char) (rest : List Char) :
    ∃ tail after, rest = tail ++ after ∧ (Lexeme.at c rest).text = c :: tail ∧
      (Lexeme.at c rest).Fits after := by
  unfold Lexeme.at
  split_ifs with hident hopening hclosing hbang hequals hboth heither hequal
  · refine ⟨_, _, List.takeWhile_append_dropWhile.symm, rfl, ⟨c, _, rfl, hident, ?_⟩, ?_⟩
    · exact fun d hd => List.mem_takeWhile_imp hd
    · intro d hd
      have hhead := List.head?_dropWhile_not Text.isIdentPart rest
      rw [hd] at hhead
      simpa using hhead
  · exact ⟨[], rest, rfl, by simp [Lexeme.text, hopening], trivial⟩
  · exact ⟨[], rest, rfl, by simp [Lexeme.text, hclosing], trivial⟩
  · obtain ⟨after, hafter⟩ := List.head?_eq_some_iff.1 hequals
    exact ⟨['='], after, hafter, by simp [Lexeme.text, hbang], trivial⟩
  · exact ⟨[], rest, rfl, by simp [Lexeme.text, hbang], trivial⟩
  · obtain ⟨after, hafter⟩ := List.head?_eq_some_iff.1 hboth.2
    exact ⟨['&'], after, hafter, by simp [Lexeme.text, hboth.1], trivial⟩
  · obtain ⟨after, hafter⟩ := List.head?_eq_some_iff.1 heither.2
    exact ⟨['|'], after, hafter, by simp [Lexeme.text, heither.1], trivial⟩
  · obtain ⟨after, hafter⟩ := List.head?_eq_some_iff.1 hequal.2
    exact ⟨['='], after, hafter, by simp [Lexeme.text, hequal.1], trivial⟩
  · exact ⟨[], rest, rfl, rfl, trivial⟩

/-- Every text spells the lexemes that are read from it. -/
theorem spells_lexemesFrom (offset : Nat) (cs : List Char) :
    Spells ((lexemesFrom 0 offset cs).map Placed.lexeme) cs := by
  induction hlength : cs.length using Nat.strong_induction_on generalizing offset cs with
  | h length ih =>
      cases cs with
      | nil => exact .done (by simp)
      | cons c rest =>
          cases hc : Text.isBlank c with
          | true =>
              rw [lexemesFrom_blank hc]
              exact (ih rest.length (by simp [← hlength]) _ rest rfl).cons_blank hc
          | false =>
              obtain ⟨tail, after, rfl, htext, hfits⟩ := exists_at c rest
              rw [lexemesFrom_cons hc offset htext]
              have hshort : after.length < length := by
                simp only [← hlength, List.length_cons, List.length_append]
                omega
              have hmore := ih after.length hshort (offset + c.utf8Size + Text.width tail) after rfl
              have hnext : Spells _ ([] ++ (Lexeme.at c (tail ++ after)).text ++ after) :=
                .next (by simp) hfits hmore
              rw [htext] at hnext
              exact hnext

theorem isBlank_of_isIdentStart (hc : Text.isIdentStart c = true) : Text.isBlank c = false := by
  by_contra hblank
  simp only [Text.isBlank, Bool.not_eq_false, Bool.or_eq_true, beq_iff_eq] at hblank
  rcases hblank with (((rfl | rfl) | rfl) | rfl) | rfl <;> exact absurd hc (by decide)

/-- Where operands start, no text starts with an equals sign, so that a `!` before it stands
alone. -/
theorem head?_ne_equals (h : Spells ls after)
    (hstart : ∀ l ∈ ls.head?, l.startsOperand = true) :
    after.head? ≠ some '=' := by
  intro hequals
  obtain ⟨rest, rfl⟩ := List.head?_eq_some_iff.1 hequals
  generalize htext : '=' :: rest = text at h
  cases h with
  | done blank =>
      subst htext
      exact absurd (blank '=' (by simp)) (by decide)
  | @next blanks l ls after blank fits more =>
      cases blanks with
      | cons b blanks =>
          simp only [List.cons_append, List.cons.injEq] at htext
          exact absurd (blank b (by simp)) (by rw [← htext.1]; decide)
      | nil =>
          have hl := hstart l (by simp)
          cases l with
          | name text =>
              obtain ⟨c, tail, rfl, hc, _⟩ := fits.1
              simp only [Lexeme.text, List.nil_append, List.cons_append, List.cons.injEq] at htext
              exact absurd hc (by rw [← htext.1]; decide)
          | bang | opening => simp [Lexeme.text] at htext
          | _ => cases hl

theorem lexemesFrom_blanks {blanks : List Char} (h : ∀ c ∈ blanks, Text.isBlank c = true)
    (offset : Nat) (cs : List Char) :
    lexemesFrom 0 offset (blanks ++ cs) = lexemesFrom 0 (offset + Text.width blanks) cs := by
  induction blanks generalizing offset with
  | nil => simp
  | cons b blanks ih =>
      rw [List.cons_append, lexemesFrom_blank (h b (by simp)), ih fun c hc => h c (by simp [hc])]
      simp [Nat.add_assoc]

/-- A lexeme is read back where what follows does not belong to it. -/
theorem at_text (hl : ∀ c, l ≠ .stray c) (fits : l.Fits after)
    (alone : l = .bang → after.head? ≠ some '=') :
    ∃ c tail, l.text = c :: tail ∧ Text.isBlank c = false ∧
      Lexeme.at c (tail ++ after) = l := by
  cases l with
  | name text =>
      obtain ⟨⟨c, tail, rfl, hc, htail⟩, hafter⟩ := fits
      refine ⟨c, tail, rfl, isBlank_of_isIdentStart hc, ?_⟩
      have htake : (tail ++ after).takeWhile Text.isIdentPart = tail := by
        rw [List.takeWhile_append_of_pos htail]
        cases after with
        | nil => simp
        | cons d after => simp [hafter d rfl]
      simp [Lexeme.at, hc, htake]
  | bang =>
      have hne := alone rfl
      exact ⟨'!', [], rfl, by decide, by simp [Lexeme.at, hne, Text.isIdentStart]⟩
  | stray c => exact absurd rfl (hl c)
  | _ => exact ⟨_, _, rfl, by decide, rfl⟩

/-- A list that alternates between what ends and what starts an operand is read from its
spellings. -/
theorem lexemesFrom_of_spells (h : Spells ls cs) (hchain : ls.IsChain Lexeme.Precedes)
    (hstray : ∀ c, Lexeme.stray c ∉ ls) (offset : Nat) :
    (lexemesFrom 0 offset cs).map Placed.lexeme = ls := by
  induction h generalizing offset with
  | @done blanks blank =>
      have hnone := lexemesFrom_blanks blank offset []
      rw [List.append_nil] at hnone
      simp [hnone, lexemesFrom]
  | @next blanks l ls after blank fits more ih =>
      have hl : ∀ c, l ≠ .stray c := fun c hc => hstray c (by simp [hc])
      obtain ⟨hnext, hls⟩ := List.isChain_cons.1 hchain
      have halone : l = .bang → after.head? ≠ some '=' := by
        rintro rfl
        exact head?_ne_equals more hnext
      obtain ⟨c, tail, htext, hc, hat⟩ := at_text hl fits halone
      rw [htext, List.append_assoc, lexemesFrom_blanks blank, List.cons_append,
        lexemesFrom_cons hc _ (hat ▸ htext), hat, List.map_cons,
        ih hls fun c hc => hstray c (by simp [hc])]

/-- Such a list has a spelling without blanks. -/
theorem spells_flatMap (hident : ∀ text, Lexeme.name text ∈ ls → IsIdent text)
    (hchain : ls.IsChain Lexeme.Precedes) (hstray : ∀ c, Lexeme.stray c ∉ ls) :
    Spells ls (ls.flatMap Lexeme.text) := by
  induction ls with
  | nil => exact .done (by simp)
  | cons l ls ih =>
      obtain ⟨hnext, hls⟩ := List.isChain_cons.1 hchain
      have hmore := ih (fun text h => hident text (by simp [h])) hls
        fun c hc => hstray c (by simp [hc])
      suffices hfits : l.Fits (ls.flatMap Lexeme.text) by
        have hnext : Spells (l :: ls) ([] ++ l.text ++ ls.flatMap Lexeme.text) :=
          .next (by simp) hfits hmore
        simpa using hnext
      cases l with
      | name text =>
          refine ⟨hident text (by simp), ?_⟩
          intro d hd
          cases ls with
          | nil => cases hd
          | cons l' ls =>
              have hl' : l'.startsOperand = false := hnext l' rfl
              cases l' with
              | name _ | bang | opening => cases hl'
              | stray c => exact absurd (by simp) (hstray c)
              | _ =>
                  obtain rfl : _ = d := by simpa [Lexeme.text] using hd
                  decide
      | _ => trivial

end Reading

end AsmIndex.Condition

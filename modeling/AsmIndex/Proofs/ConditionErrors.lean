import AsmIndex.Proofs.ConditionGrammar

/-!
What the errors of conditions say. An error that names a place divides the text there. What comes
before the place has been read without fault: it is a condition, or an operand and closing
parentheses make it one. What comes after it is of no use in that place. A missing parenthesis is
reported where its counterpart stands, and what follows that one is a condition again, as far as
it goes.
-/

namespace AsmIndex.Condition

/-- The text is `before` and `after`, and the second part starts at the byte `offset`. -/
def SplitsAt (cs : List Char) (offset : Nat) (before after : List Char) : Prop :=
  cs = before ++ after ∧ Text.width before = offset

namespace ParseError

/-- The place that an error names. -/
def offset? : ParseError → Option Nat
  | empty => none
  | unexpectedChar _ offset | unexpectedEnd offset | unclosedGroup offset | trailingInput offset =>
    some offset

/-- What an error says about a text. -/
def Describes (cs : List Char) : ParseError → Prop
  | empty => ∀ c ∈ cs, Text.isBlank c = true
  | trailingInput offset =>
    ∃ before c after, SplitsAt cs offset before (c :: after) ∧ Text.isBlank c = false ∧
      ∃ t, parse before = .ok t
  | unexpectedEnd offset =>
    offset = Text.width cs ∧ ∃ k t, parse (cs ++ 'A' :: List.replicate k ')') = .ok t
  | unexpectedChar found offset =>
    ∃ before after, SplitsAt cs offset before (found :: after) ∧ Text.isBlank found = false ∧
      found ≠ '(' ∧ Text.isIdentStart found = false ∧
      (found = '!' → after.head? = some '=') ∧
      ∃ k t, parse (before ++ 'A' :: List.replicate k ')') = .ok t
  | unclosedGroup offset =>
    ∃ before inner after, SplitsAt cs offset before ('(' :: (inner ++ after)) ∧
      (∃ t, parse inner = .ok t) ∧ ∀ c ∈ after.head?, Text.isBlank c = false ∧ c ≠ ')'

end ParseError

section Places

variable {offset : Nat} {cs before after : List Char} {p : Placed} {ps qs : List Placed}
  {l : Lexeme} {ls ms : List Lexeme}

theorem Lexeme.Fits.left (h : l.Fits (before ++ after)) : l.Fits before := by
  cases l with
  | name text =>
      refine ⟨h.1, ?_⟩
      intro c hc
      exact h.2 c (by simp [Option.mem_def.1 hc])
  | _ => trivial

/-- The first lexeme of a text stands after blanks, and the others are those of what follows it. -/
theorem exists_of_lexemesFrom_cons (h : lexemesFrom 0 offset cs = p :: ps) :
    ∃ blanks c tail after, cs = blanks ++ (c :: tail) ++ after ∧
      (∀ b ∈ blanks, Text.isBlank b = true) ∧ Text.isBlank c = false ∧
      p = ⟨offset + Text.width blanks, Lexeme.at c (tail ++ after)⟩ ∧
      p.lexeme.text = c :: tail ∧
      p.lexeme.Fits after ∧
      ps = lexemesFrom 0 (offset + Text.width (blanks ++ (c :: tail))) after := by
  induction cs generalizing offset with
  | nil => cases h
  | cons c rest ih =>
      cases hc : Text.isBlank c with
      | true =>
          rw [lexemesFrom_blank hc] at h
          obtain ⟨blanks, d, tail, after, rfl, hblanks, hd, rfl, htext, hfits, rfl⟩ := ih h
          refine ⟨c :: blanks, d, tail, after, rfl, ?_, hd, ?_, htext, hfits, ?_⟩
          · simpa [hc] using hblanks
          · simp [Nat.add_assoc]
          · simp [Nat.add_assoc]
      | false =>
          obtain ⟨tail, after, rfl, htext, hfits⟩ := exists_at c rest
          rw [lexemesFrom_cons hc offset htext] at h
          obtain ⟨rfl, rfl⟩ := List.cons.inj h
          exact ⟨[], c, tail, after, rfl, by simp, hc, by simp, htext, hfits,
            by simp [Nat.add_assoc]⟩

/-- The text before a lexeme spells the lexemes before it. -/
theorem exists_of_lexemesFrom_append (h : lexemesFrom 0 offset cs = ps ++ p :: qs) :
    ∃ before c tail after, cs = before ++ (c :: tail ++ after) ∧
      Spells (ps.map Placed.lexeme) before ∧ Text.isBlank c = false ∧
      p = ⟨offset + Text.width before, Lexeme.at c (tail ++ after)⟩ ∧
      p.lexeme.text = c :: tail ∧
      qs = lexemesFrom 0 (offset + Text.width (before ++ (c :: tail))) after := by
  induction ps generalizing offset cs with
  | nil =>
      obtain ⟨blanks, c, tail, after, rfl, hblanks, hc, hp, htext, -, hqs⟩ :=
        exists_of_lexemesFrom_cons h
      exact ⟨blanks, c, tail, after, by simp, .done hblanks, hc, hp, htext, hqs⟩
  | cons first ps ih =>
      obtain ⟨blanks, d, rest, text, rfl, hblanks, -, -, hfirst, hfits, hmore⟩ :=
        exists_of_lexemesFrom_cons h
      obtain ⟨before, c, tail, after, rfl, hspells, hc, rfl, htext, rfl⟩ := ih hmore.symm
      refine ⟨blanks ++ (d :: rest) ++ before, c, tail, after, by simp, ?_, hc, ?_, htext, ?_⟩
      · rw [← hfirst]
        exact .next hblanks hfits.left hspells
      · simp [Nat.add_assoc]
      · simp [Nat.add_assoc]

theorem Spells.blanks_append {blanks : List Char} (h : Spells ls cs)
    (hblanks : ∀ b ∈ blanks, Text.isBlank b = true) : Spells ls (blanks ++ cs) := by
  induction blanks with
  | nil => exact h
  | cons b blanks ih =>
      exact (ih fun c hc => hblanks c (by simp [hc])).cons_blank (hblanks b (by simp))

theorem Lexeme.Fits.text_ne_nil (h : l.Fits after) : l.text ≠ [] := by
  cases l with
  | name text =>
      obtain ⟨c, rest, rfl, -⟩ := h.1
      exact List.cons_ne_nil c rest
  | _ => exact List.cons_ne_nil _ _

theorem Spells.eq_nil (h : Spells ls cs) (hcs : cs = []) : ls = [] := by
  cases h with
  | done => rfl
  | next _ fits _ =>
      simp only [List.append_eq_nil_iff] at hcs
      exact absurd hcs.1.2 fits.text_ne_nil

/-- Two spellings make one, if the last lexeme of the first does not run into the second. -/
theorem Spells.append (h : Spells ls before) (h' : Spells ms after)
    (hlast : ∀ l ∈ ls.getLast?, l.Fits after) : Spells (ls ++ ms) (before ++ after) := by
  induction h with
  | done blank => exact h'.blanks_append blank
  | @next blanks l ls text blank fits more ih =>
      have hmore : Spells (ls ++ ms) (text ++ after) := by
        apply ih
        intro m hm
        exact hlast m (by simp [List.getLast?_cons, Option.mem_def.1 hm])
      have hfits : l.Fits (text ++ after) := by
        cases text with
        | nil => exact hlast l (by simp [more.eq_nil rfl])
        | cons c text =>
            cases l with
            | name => exact ⟨fits.1, fits.2⟩
            | _ => trivial
      have hnext : Spells (l :: (ls ++ ms)) (blanks ++ l.text ++ (text ++ after)) :=
        .next blank hfits hmore
      simpa using hnext

end Places

section Completion

variable {n : Nonterminal} {c t : Condition} {stack : List Pending} {ls top : List Lexeme}

/-- Closing parentheses complete what stands on a stack and a condition above it. -/
theorem Stacked.closes (h : Stacked stack ls) (htop : Derives n c top)
    (hn : n = .unary ∨ Weaker n.strength stack) :
    ∃ k t, Derives .either t (ls ++ top ++ List.replicate k .closing) := by
  induction h generalizing n c top with
  | nil => exact ⟨0, c, by simpa using htop.weaken (by cases n <;> decide)⟩
  | @negation stack ls below ih =>
      have hunary : Derives .unary c top := by
        rcases hn with rfl | hweaker
        · exact htop
        · cases hweaker
      obtain ⟨k, t, hall⟩ := ih (.negation hunary) (.inl rfl)
      exact ⟨k, t, by simpa using hall⟩
  | @group stack ls offset below ih =>
      have hprimary : Derives .primary c (.opening :: (top ++ [.closing])) :=
        .group (htop.weaken (by cases n <;> decide))
      obtain ⟨k, t, hall⟩ := ih (.primary hprimary) (.inl rfl)
      exact ⟨k + 1, t, by simpa [List.replicate_succ] using hall⟩
  | @operator op left stack ls ms below weaker side ih =>
      have hstrong : op.strength < n.strength := by
        rcases hn with rfl | hweaker
        · exact op.strength_lt_unary
        · exact hweaker
      obtain ⟨k, t, hall⟩ := ih (side.chain htop hstrong) (.inr (by rwa [op.strength_chain]))
      exact ⟨k, t, by simpa using hall⟩

theorem spells_closings (k : Nat) :
    Spells (List.replicate k .closing) (List.replicate k ')') := by
  induction k with
  | zero => exact .done (by simp)
  | succ k ih =>
      have hnext : Spells _ ([] ++ Lexeme.closing.text ++ List.replicate k ')') :=
        .next (by simp) trivial ih
      exact hnext

/-- A text that ends where an operand is wanted becomes a condition by one and closing
parentheses. -/
theorem exists_completion {before : List Char} (h : Stacked stack ls) (hspells : Spells ls before) :
    ∃ k t, parse (before ++ 'A' :: List.replicate k ')') = .ok t := by
  have hname : Derives .unary (.symbol "A") [.name ['A']] := .primary (.ident ['A'])
  obtain ⟨k, t, hall⟩ := h.closes hname (.inl rfl)
  rw [List.append_assoc, List.singleton_append] at hall
  refine ⟨k, t, parse_of_derives hall ?_⟩
  obtain ⟨-, -, hjoint⟩ := List.isChain_append.1 hall.alternates.chain
  have hrest : Spells (.name ['A'] :: List.replicate k .closing)
      ([] ++ Lexeme.text (.name ['A']) ++ List.replicate k ')') := by
    refine .next (by simp) ⟨⟨'A', [], rfl, by decide, by simp⟩, ?_⟩ (spells_closings k)
    intro c hc
    obtain rfl := List.eq_of_mem_replicate (List.mem_of_mem_head? hc)
    decide
  refine hspells.append hrest ?_
  intro l hl
  -- No operand ends before the new one, so no name runs into it.
  have hends : Lexeme.startsOperand (.name ['A']) = !l.endsOperand := hjoint l hl _ rfl
  cases l with
  | name => cases hends
  | _ => trivial

end Completion

/-- The offsets of the parentheses that are open after a lexeme, if `opened` are before it. -/
def parentheses (opened : List Nat) (p : Placed) : List Nat :=
  match p.lexeme with
  | .opening => p.offset :: opened
  | .closing => opened.tail
  | _ => opened

/-- The offsets of the open parentheses on a stack, the innermost first. -/
def groupOffsets : List Pending → List Nat
  | [] => []
  | .group offset :: stack => offset :: groupOffsets stack
  | _ :: stack => groupOffsets stack

def Reading.stack : Reading → List Pending
  | operand stack => stack
  | value stack _ => stack

section Parentheses

variable {stack : List Pending} {p : Placed} {ps : List Placed} {r r' : Reading}

theorem groupOffsets_negate (stack : List Pending) (c : Condition) :
    groupOffsets (negate stack c).1 = groupOffsets stack := by
  fun_induction negate stack c with
  | case1 stack c ih => exact ih
  | case2 => rfl

theorem groupOffsets_combine (k : Nat) (stack : List Pending) (c : Condition) :
    groupOffsets (combine k stack c).1 = groupOffsets stack := by
  fun_induction combine k stack c with
  | case1 op left stack c hk ih => exact ih
  | case2 => rfl
  | case3 => rfl

theorem groupOffsets_step (h : r.step p = .ok r') :
    groupOffsets r'.stack = parentheses (groupOffsets r.stack) p := by
  cases r with
  | operand stack =>
      simp only [Reading.step, readOperand] at h
      split at h
      · rename_i text hp
        cases h
        simp [Reading.stack, parentheses, hp, groupOffsets_negate]
      · rename_i hp
        cases h
        simp [Reading.stack, parentheses, hp, groupOffsets]
      · rename_i hp
        cases h
        simp [Reading.stack, parentheses, hp, groupOffsets]
      · cases h
  | value stack c =>
      simp only [Reading.step, readOperator] at h
      split at h
      · rename_i op hop
        cases h
        have hp := Operator.ofLexeme?_eq_some.1 hop
        have hsame : parentheses (groupOffsets stack) p = groupOffsets stack := by
          cases op <;> simp [parentheses, hp, Operator.lexeme]
        simp [Reading.stack, hsame, groupOffsets, groupOffsets_combine]
      · split at h
        · rename_i offset outer inner hp hcombine
          cases h
          have hstack := groupOffsets_combine 0 stack c
          rw [hcombine] at hstack
          simp [Reading.stack, parentheses, hp, groupOffsets_negate, ← hstack, groupOffsets]
        · cases h

theorem groupOffsets_run (h : r.run ps = .ok r') :
    groupOffsets r'.stack = ps.foldl parentheses (groupOffsets r.stack) := by
  induction ps generalizing r with
  | nil =>
      cases h
      rfl
  | cons p ps ih =>
      rw [Reading.run] at h
      split at h
      · rename_i next hstep
        rw [ih h, groupOffsets_step hstep, List.foldl_cons]
      · cases h

/-- A derivation closes the parentheses that it opens. -/
theorem Derives.parentheses_eq {n : Nonterminal} {t : Condition} {ls : List Lexeme}
    (h : Derives n t ls) (hps : ps.map Placed.lexeme = ls) (opened : List Nat) :
    ps.foldl parentheses opened = opened := by
  induction h generalizing ps opened with
  | ident text =>
      obtain ⟨p, rfl, hp⟩ := List.map_eq_singleton_iff.1 hps
      simp [parentheses, hp]
  | group _ ih =>
      obtain ⟨p, ps, rfl, hp, hps⟩ := List.map_eq_cons_iff.1 hps
      obtain ⟨inner, last, rfl, hinner, hlast⟩ := List.map_eq_append_iff.1 hps
      obtain ⟨q, rfl, hq⟩ := List.map_eq_singleton_iff.1 hlast
      simp [List.foldl_append, ih hinner, parentheses, hp, hq]
  | negation _ ih =>
      obtain ⟨p, ps, rfl, hp, hps⟩ := List.map_eq_cons_iff.1 hps
      simp [ih hps, parentheses, hp]
  | equal _ _ ihl ihr | differ _ _ ihl ihr | both _ _ ihl ihr | either _ _ ihl ihr =>
      obtain ⟨left, right, rfl, hleft, hright⟩ := List.map_eq_append_iff.1 hps
      obtain ⟨p, right, rfl, hp, hright⟩ := List.map_eq_cons_iff.1 hright
      simp [List.foldl_append, ihl hleft, ihr hright, parentheses, hp]
  | primary _ ih | unary _ ih | comparison _ ih | conjunction _ ih => exact ih hps opened

/-- The innermost open parenthesis has been read, and then a condition. -/
theorem exists_opening {c : Condition} {offset : Nat}
    (hrun : (Reading.operand []).run ps = .ok (.value stack c))
    (hopen : openGroup? stack = some offset) :
    ∃ qs rs t outer, ps = qs ++ ⟨offset, .opening⟩ :: rs ∧
      Derives .either t (rs.map Placed.lexeme) ∧
      (combine 0 stack c).1 = .group offset :: outer := by
  obtain ⟨htopped, hweaker⟩ := follows_of_run hrun
  obtain ⟨m, -, ⟨below, top, hlexemes, hbelow, htop⟩, hlower⟩ :=
    combine_topped htopped hweaker (Nat.zero_le _)
  rw [← openGroup?_combine 0 stack c] at hopen
  cases hstack : (combine 0 stack c).1 with
  | nil => simp [hstack, openGroup?] at hopen
  | cons first outer =>
      rw [hstack] at hbelow hlower hopen
      cases first with
      | negation => cases hlower
      | operator => cases hlower
      | group place =>
          obtain rfl : place = offset := by simpa [openGroup?] using hopen
          cases hbelow with
          | @group _ below _ _ =>
              rw [List.append_assoc, List.singleton_append] at hlexemes
              obtain ⟨qs, ps, rfl, hqs, hps⟩ := List.map_eq_append_iff.1 hlexemes
              obtain ⟨p, rs, rfl, hp, hrs⟩ := List.map_eq_cons_iff.1 hps
              have htopEither : Derives .either (combine 0 stack c).2 top :=
                htop.weaken (by cases m <;> decide)
              -- What was read after `p` is balanced, so `p` is the innermost open parenthesis.
              have hoffsets : groupOffsets stack = (qs ++ p :: rs).foldl parentheses [] :=
                groupOffsets_run hrun
              rw [← groupOffsets_combine 0 stack c, hstack, List.foldl_append, List.foldl_cons,
                htop.parentheses_eq hrs] at hoffsets
              simp only [groupOffsets, parentheses, hp, List.cons.injEq] at hoffsets
              obtain rfl : p = ⟨place, .opening⟩ := by rw [hoffsets.1, ← hp]
              exact ⟨qs, rs, _, outer, rfl, hrs ▸ htopEither, rfl⟩

end Parentheses

section Errors

variable {cs : List Char} {stack : List Pending} {c t : Condition} {p : Placed} {ps : List Placed}
  {r : Reading} {e : ParseError}

theorem Reading.exists_of_run_eq_error (h : r.run ps = .error e) :
    ∃ qs p rs r', ps = qs ++ p :: rs ∧ r.run qs = .ok r' ∧ r'.step p = .error e := by
  induction ps generalizing r with
  | nil => cases h
  | cons p ps ih =>
      rw [run] at h
      split at h
      · rename_i next hstep
        obtain ⟨qs, q, rs, r', rfl, hrun, hfails⟩ := ih h
        exact ⟨p :: qs, q, rs, r', rfl, by rw [run, hstep]; exact hrun, hfails⟩
      · rename_i hstep
        cases h
        exact ⟨[], p, ps, r, rfl, rfl, hstep⟩

theorem readOperand_eq_error (h : readOperand stack p = .error e) :
    e = .unexpectedChar (p.lexeme.text.headD ' ') p.offset ∧ p.lexeme.startsOperand = false := by
  unfold readOperand at h
  cases hp : p.lexeme <;> rw [hp] at h <;> cases h <;> exact ⟨rfl, rfl⟩

theorem readOperator_eq_error (h : readOperator stack c p = .error e) :
    e = .after stack p.offset ∧
      ∀ offset outer, (combine 0 stack c).1 = .group offset :: outer →
      p.lexeme ≠ .closing := by
  unfold readOperator at h
  split at h
  · cases h
  · split at h
    · cases h
    · rename_i hclosed
      cases h
      refine ⟨rfl, ?_⟩
      intro offset outer hcombine hp
      exact hclosed offset outer (combine 0 stack c).2 hp (by rw [← hcombine])

/-- Where an operand is wanted, a character that starts none. -/
theorem at_of_startsOperand {c : Char} {rest : List Char}
    (h : (Lexeme.at c rest).startsOperand = false) :
    c ≠ '(' ∧ Text.isIdentStart c = false ∧ (c = '!' → rest.head? = some '=') := by
  refine ⟨?_, ?_, ?_⟩
  · rintro rfl
    cases h
  · by_contra hident
    rw [Bool.not_eq_false] at hident
    simp [Lexeme.at, hident, Lexeme.startsOperand] at h
  · rintro rfl
    by_contra hhead
    simp [Lexeme.at, hhead, Text.isIdentStart, Lexeme.startsOperand] at h

/-- An open parenthesis that the rest of the text does not close. -/
theorem describes_unclosedGroup {offset : Nat} {rest : List Placed}
    (hrun : (Reading.operand []).run ps = .ok (.value stack c))
    (hlexemes : lexemes cs = ps ++ rest) (hopen : openGroup? stack = some offset)
    (hrest : ∀ p ∈ rest.head?, ∀ offset outer,
      (combine 0 stack c).1 = .group offset :: outer →
      p.lexeme ≠ .closing) : (ParseError.unclosedGroup offset).Describes cs := by
  obtain ⟨qs, rs, t, outer, rfl, hinner, hcombine⟩ := exists_opening hrun hopen
  rw [List.append_assoc, List.cons_append] at hlexemes
  obtain ⟨before, d, tail, after, rfl, -, -, hplaced, htext, hmore⟩ :=
    exists_of_lexemesFrom_append hlexemes
  obtain ⟨rfl, rfl⟩ : '(' = d ∧ [] = tail := List.cons.inj htext
  have hoffset : Text.width before = offset := by
    have hplace := congrArg Placed.offset hplaced
    simpa using hplace.symm
  cases rest with
  | nil =>
      have hspells := spells_lexemesFrom (0 + Text.width (before ++ ['('])) after
      rw [← hmore, List.append_nil] at hspells
      exact ⟨before, after, [], ⟨by simp, hoffset⟩,
        ⟨t, parse_of_derives hinner hspells⟩, by simp⟩
  | cons p rest =>
      obtain ⟨inner, d, tail, after, rfl, hspells, hd, hp, -, -⟩ :=
        exists_of_lexemesFrom_append hmore.symm
      refine ⟨before, inner, d :: tail ++ after, ⟨rfl, hoffset⟩,
        ⟨t, parse_of_derives hinner hspells⟩, ?_⟩
      intro x hx
      obtain rfl : d = x := by simpa using hx
      refine ⟨hd, ?_⟩
      rintro rfl
      exact hrest p rfl offset outer hcombine (by rw [hp]; rfl)

theorem describes_step {rest : List Placed} (hrun : (Reading.operand []).run ps = .ok r)
    (hlexemes : lexemes cs = ps ++ p :: rest) (hstep : r.step p = .error e) : e.Describes cs := by
  have hfollows := follows_of_run hrun
  obtain ⟨before, d, tail, after, hcs, hspells, hd, hp, htext, -⟩ :=
    exists_of_lexemesFrom_append hlexemes
  have hsplit : SplitsAt cs p.offset before (d :: (tail ++ after)) := ⟨hcs, by simp [hp]⟩
  cases r with
  | operand stack =>
      obtain ⟨rfl, hoperand⟩ := readOperand_eq_error hstep
      rw [htext, List.headD_cons]
      have hat : p.lexeme = Lexeme.at d (tail ++ after) := congrArg Placed.lexeme hp
      obtain ⟨hopening, hident, hbang⟩ := at_of_startsOperand (hat ▸ hoperand)
      exact ⟨before, tail ++ after, hsplit, hd, hopening, hident, hbang,
        exists_completion hfollows hspells⟩
  | value stack c =>
      obtain ⟨rfl, hclosing⟩ := readOperator_eq_error hstep
      unfold ParseError.after
      cases hopen : openGroup? stack with
      | none =>
          have hfinish : (Reading.value stack c).finish 0 = .ok (combine 0 stack c).2 := by
            simp [Reading.finish, hopen]
          exact ⟨before, d, tail ++ after, hsplit, hd, _,
            parse_of_derives (finish_derives hfollows hfinish) hspells⟩
      | some offset =>
          refine describes_unclosedGroup hrun hlexemes hopen ?_
          intro q hq
          obtain rfl : p = q := by simpa using hq
          exact hclosing

theorem describes_finish (hrun : (Reading.operand []).run (lexemes cs) = .ok r)
    (hfinish : r.finish (Text.width cs) = .error e) : e.Describes cs := by
  cases r with
  | operand stack =>
      cases hfinish
      exact ⟨rfl, exists_completion (follows_of_run hrun) (spells_lexemesFrom 0 cs)⟩
  | value stack c =>
      simp only [Reading.finish] at hfinish
      split at hfinish
      · rename_i offset hopen
        cases hfinish
        exact describes_unclosedGroup hrun (List.append_nil _).symm hopen (by simp)
      · cases hfinish

theorem describes_of_parse (h : parse cs = .error e) : e.Describes cs := by
  unfold parse at h
  split at h
  · rename_i hlexemes
    cases h
    have hspells := spells_lexemesFrom 0 cs
    rw [show lexemesFrom 0 0 cs = [] from hlexemes] at hspells
    cases hspells with
    | done blank => exact blank
  · rename_i first rest hlexemes
    rw [← hlexemes] at h
    split at h
    · rename_i r hrun
      exact describes_finish hrun h
    · rename_i hrun
      cases h
      obtain ⟨qs, p, rs, r, hsplit, hqs, hstep⟩ := Reading.exists_of_run_eq_error hrun
      exact describes_step hqs hsplit hstep

theorem parse_of_blank (h : ∀ c ∈ cs, Text.isBlank c = true) : parse cs = .error .empty := by
  have hnone := lexemesFrom_blanks h 0 []
  rw [List.append_nil] at hnone
  unfold parse lexemes
  rw [hnone]
  rfl

theorem ParseError.Describes.splits {offset : Nat} (h : e.Describes cs)
    (hoffset : offset ∈ e.offset?) : ∃ before after, SplitsAt cs offset before after := by
  cases e with
  | empty => cases hoffset
  | trailingInput place =>
      cases hoffset
      obtain ⟨before, c, after, hsplit, -⟩ := h
      exact ⟨before, c :: after, hsplit⟩
  | unexpectedEnd place =>
      cases hoffset
      exact ⟨cs, [], by simp, h.1.symm⟩
  | unexpectedChar found place =>
      cases hoffset
      obtain ⟨before, after, hsplit, -⟩ := h
      exact ⟨before, found :: after, hsplit⟩
  | unclosedGroup place =>
      cases hoffset
      obtain ⟨before, inner, after, hsplit, -⟩ := h
      exact ⟨before, '(' :: (inner ++ after), hsplit⟩

/-- An error names a place within the text, between two characters, and what it says of the text
is so; the text is called empty exactly if it is blank. -/
theorem parse_errors_precise (cs : List Char) (e : ParseError) (h : parse cs = .error e) :
    (∀ offset ∈ e.offset?,
        offset ≤ Text.width cs ∧ ∃ before after, SplitsAt cs offset before after) ∧
      (e = .empty ↔ ∀ c ∈ cs, Text.isBlank c = true) ∧ e.Describes cs := by
  have hdescribes := describes_of_parse h
  refine ⟨?_, ⟨?_, ?_⟩, hdescribes⟩
  · intro offset hoffset
    obtain ⟨before, after, rfl, rfl⟩ := hdescribes.splits hoffset
    exact ⟨by simp, before, after, rfl, rfl⟩
  · rintro rfl
    exact hdescribes
  · intro hblank
    rw [parse_of_blank hblank] at h
    cases h
    rfl

end Errors

theorem parse_errors_precise_nested :
    parse "(A||!(é".toList = .error (.unexpectedChar 'é' 6) ∧
      (∀ offset ∈ (ParseError.unexpectedChar 'é' 6).offset?,
        offset ≤ Text.width "(A||!(é".toList ∧
          ∃ before after, SplitsAt "(A||!(é".toList offset before after) ∧
      (ParseError.unexpectedChar 'é' 6 = .empty ↔ ∀ c ∈ "(A||!(é".toList,
        Text.isBlank c = true) ∧
      (ParseError.unexpectedChar 'é' 6).Describes "(A||!(é".toList := by
  have hparse : parse "(A||!(é".toList = .error (.unexpectedChar 'é' 6) := by decide
  exact ⟨hparse, parse_errors_precise _ _ hparse⟩

example : parse "(A && (!B é".toList = .error (.unclosedGroup 6) ∧
    parse "A ==\t".toList = .error (.unexpectedEnd 5) ∧
    parse "(A) )".toList = .error (.trailingInput 4) ∧ parse " \t".toList = .error .empty := by
  decide

end AsmIndex.Condition

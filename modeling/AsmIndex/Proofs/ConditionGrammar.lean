import AsmIndex.Condition.Parse
import AsmIndex.Proofs.ConditionLexemes

/-!
The grammar of conditions, and that reading a condition follows it: a text is read as a condition
exactly if it spells a derivation of that condition. The reader keeps a stack where the grammar
nests, so each direction has a statement about stacks. Reading the lexemes of a derivation leaves
the stack as it was, but for operators that are still to be applied; and what has been read is at
any time a derivation of each part of the stack, one after the other.
-/

namespace AsmIndex.Condition

/-- The nonterminals of the grammar, from the weakest operators to the operands. -/
inductive Nonterminal
  | either
  | both
  | comparison
  | unary
  | primary
deriving DecidableEq

/-- The derivations of a condition. Operators of one strength make chains, which nest to the
left. -/
inductive Derives : Nonterminal → Condition → List Lexeme → Prop
  | ident (text) : Derives .primary (.symbol (String.ofList text)) [.name text]
  | group {t ls} (inner : Derives .either t ls) :
      Derives .primary t (.opening :: (ls ++ [.closing]))
  | primary {t ls} (only : Derives .primary t ls) : Derives .unary t ls
  | negation {t ls} (operand : Derives .unary t ls) : Derives .unary (.negation t) (.bang :: ls)
  | unary {t ls} (only : Derives .unary t ls) : Derives .comparison t ls
  | equal {l r ls rs} (left : Derives .comparison l ls) (right : Derives .unary r rs) :
      Derives .comparison (.equal l r) (ls ++ .equal :: rs)
  | differ {l r ls rs} (left : Derives .comparison l ls) (right : Derives .unary r rs) :
      Derives .comparison (.differ l r) (ls ++ .differ :: rs)
  | comparison {t ls} (only : Derives .comparison t ls) : Derives .both t ls
  | both {l r ls rs} (left : Derives .both l ls) (right : Derives .comparison r rs) :
      Derives .both (.both l r) (ls ++ .both :: rs)
  | conjunction {t ls} (only : Derives .both t ls) : Derives .either t ls
  | either {l r ls rs} (left : Derives .either l ls) (right : Derives .both r rs) :
      Derives .either (.either l r) (ls ++ .either :: rs)

def Nonterminal.strength : Nonterminal → Nat
  | either => 1
  | both => 2
  | comparison => 3
  | unary => 4
  | primary => 5

namespace Operator

def lexeme : Operator → Lexeme
  | either => .either
  | both => .both
  | equal => .equal
  | differ => .differ

/-- The chains that an operator makes. -/
def chain : Operator → Nonterminal
  | either => .either
  | both => .both
  | equal | differ => .comparison

theorem strength_chain (op : Operator) : op.chain.strength = op.strength := by
  cases op <;> rfl

theorem strength_lt_unary (op : Operator) : op.strength < Nonterminal.unary.strength := by
  cases op <;> decide

theorem ofLexeme?_eq_some {l : Lexeme} {op : Operator} :
    ofLexeme? l = some op ↔ l = op.lexeme := by
  cases op <;> cases l <;> simp [ofLexeme?, lexeme]

end Operator

section Derivations

variable {n m : Nonterminal} {t l r : Condition} {ls rs : List Lexeme}

theorem Derives.weaken (h : Derives n t ls) (hm : m.strength ≤ n.strength) : Derives m t ls := by
  have hunary : ∀ m : Nonterminal, m.strength ≤ 4 → Derives .unary t ls →
      Derives m t ls := by
    intro m hm h
    cases m with
    | either => exact .conjunction (.comparison (.unary h))
    | both => exact .comparison (.unary h)
    | comparison => exact .unary h
    | unary => exact h
    | primary => simp [Nonterminal.strength] at hm
  cases n with
  | either =>
      cases m <;> simp [Nonterminal.strength] at hm
      exact h
  | both =>
      cases m <;> simp [Nonterminal.strength] at hm
      · exact .conjunction h
      · exact h
  | comparison =>
      cases m <;> simp [Nonterminal.strength] at hm
      · exact .conjunction (.comparison h)
      · exact .comparison h
      · exact h
  | unary => exact hunary m hm h
  | primary =>
      cases m with
      | primary => exact h
      | _ => exact hunary _ (by simp [Nonterminal.strength]) (.primary h)

theorem Derives.chain {op : Operator} (left : Derives op.chain l ls) (right : Derives n r rs)
    (hn : op.strength < n.strength) : Derives op.chain (op.apply l r) (ls ++ op.lexeme :: rs) := by
  cases op with
  | either => exact .either left (right.weaken hn)
  | both => exact .both left (right.weaken hn)
  | equal => exact .equal left (right.weaken hn)
  | differ => exact .differ left (right.weaken hn)

/-- A derivation starts and ends as operands do, and between them operands end and start in turn. -/
structure Alternates (ls : List Lexeme) : Prop where
  starts : ∃ a ∈ ls.head?, a.startsOperand = true
  ends : ∃ a ∈ ls.getLast?, a.endsOperand = true
  chain : ls.IsChain Lexeme.Precedes
  stray : ∀ c, Lexeme.stray c ∉ ls

theorem Alternates.operator (hls : Alternates ls) (hrs : Alternates rs) (op : Operator) :
    Alternates (ls ++ op.lexeme :: rs) := by
  obtain ⟨a, ha, hastart⟩ := hls.starts
  obtain ⟨b, hb, hbend⟩ := hls.ends
  obtain ⟨c, hc, hcstart⟩ := hrs.starts
  obtain ⟨d, hd, hdend⟩ := hrs.ends
  have hstart : op.lexeme.startsOperand = false := by cases op <;> rfl
  have hend : op.lexeme.endsOperand = false := by cases op <;> rfl
  refine ⟨⟨a, by simp_all, hastart⟩,
    ⟨d, by simp_all [List.getLast?_cons], hdend⟩, ?_, ?_⟩
  · refine List.isChain_append.2 ⟨hls.chain, List.isChain_cons.2 ⟨?_, hrs.chain⟩, ?_⟩
    · intro y hy
      obtain rfl := Option.mem_unique hc hy
      simp [Lexeme.Precedes, hend, hcstart]
    · intro x hx y hy
      obtain rfl := Option.mem_unique hb hx
      obtain rfl : op.lexeme = y := by simpa using hy
      simp [Lexeme.Precedes, hstart, hbend]
  · intro c hc
    rcases List.mem_append.1 hc with hc | hc
    · exact hls.stray c hc
    · rcases List.mem_cons.1 hc with hc | hc
      · cases op <;> cases hc
      · exact hrs.stray c hc

theorem Alternates.group (hls : Alternates ls) :
    Alternates (.opening :: (ls ++ [.closing])) := by
  obtain ⟨a, ha, hastart⟩ := hls.starts
  obtain ⟨b, hb, hbend⟩ := hls.ends
  refine ⟨⟨.opening, rfl, rfl⟩, ⟨.closing, by simp [List.getLast?_cons], rfl⟩, ?_, ?_⟩
  · refine List.isChain_cons.2 ⟨?_, List.isChain_append.2 ⟨hls.chain, .singleton _, ?_⟩⟩
    · intro y hy
      obtain rfl : a = y := by simp_all
      simp [Lexeme.Precedes, hastart, Lexeme.endsOperand]
    · intro x hx y hy
      obtain rfl := Option.mem_unique hb hx
      obtain rfl : Lexeme.closing = y := by simpa using hy
      simp [Lexeme.Precedes, hbend, Lexeme.startsOperand]
  · simpa using hls.stray

theorem Alternates.negation (hls : Alternates ls) : Alternates (.bang :: ls) := by
  obtain ⟨a, ha, hastart⟩ := hls.starts
  obtain ⟨b, hb, hbend⟩ := hls.ends
  refine ⟨⟨.bang, rfl, rfl⟩, ⟨b, by simp_all [List.getLast?_cons], hbend⟩, ?_, ?_⟩
  · refine List.isChain_cons.2 ⟨?_, hls.chain⟩
    intro y hy
    obtain rfl := Option.mem_unique ha hy
    simp [Lexeme.Precedes, hastart, Lexeme.endsOperand]
  · simpa using hls.stray

theorem Derives.alternates (h : Derives n t ls) : Alternates ls := by
  induction h with
  | ident text =>
      exact ⟨⟨.name text, rfl, rfl⟩, ⟨.name text, rfl, rfl⟩, .singleton _, by simp⟩
  | group _ ih => exact ih.group
  | negation _ ih => exact ih.negation
  | equal _ _ ihl ihr => exact ihl.operator ihr .equal
  | differ _ _ ihl ihr => exact ihl.operator ihr .differ
  | both _ _ ihl ihr => exact ihl.operator ihr .both
  | either _ _ ihl ihr => exact ihl.operator ihr .either
  | primary _ ih | unary _ ih | comparison _ ih | conjunction _ ih => exact ih

end Derivations

/-- On top of the stack is neither a negation nor an operator that binds as strongly as `k`. -/
def Weaker (k : Nat) : List Pending → Prop
  | .negation :: _ => False
  | .operator op _ :: _ => op.strength < k
  | _ => True

section Stacks

variable {k j : Nat} {stack stack' : List Pending} {c t : Condition}

theorem Weaker.mono (h : Weaker k stack) (hkj : k ≤ j) : Weaker j stack := by
  cases stack with
  | nil => trivial
  | cons top below =>
      cases top with
      | negation => exact h
      | group => trivial
      | operator op left => exact Nat.lt_of_lt_of_le h hkj

theorem Weaker.negate (h : Weaker k stack) (c : Condition) : negate stack c = (stack, c) := by
  cases stack with
  | nil => rfl
  | cons top below =>
      cases top with
      | negation => cases h
      | _ => rfl

theorem Weaker.combine (h : Weaker k stack) (c : Condition) :
    combine k stack c = (stack, c) := by
  cases stack with
  | nil => rfl
  | cons top below =>
      cases top with
      | operator op left => exact if_neg (Nat.not_le_of_lt h)
      | _ => rfl

theorem combine_combine (hkj : k ≤ j) (stack : List Pending) (c : Condition) :
    combine k (combine j stack c).1 (combine j stack c).2 = combine k stack c := by
  fun_induction combine j stack c with
  | case1 op left stack c hj ih =>
      rw [ih, combine, if_pos (Nat.le_trans hkj hj)]
  | case2 => rfl
  | case3 => rfl

theorem openGroup?_combine (k : Nat) (stack : List Pending) (c : Condition) :
    openGroup? (combine k stack c).1 = openGroup? stack := by
  fun_induction combine k stack c with
  | case1 op left stack c hk ih => exact ih
  | case2 => rfl
  | case3 => rfl

theorem Reading.run_append {r r' : Reading} {ps : List Placed} (h : r.run ps = .ok r')
    (qs : List Placed) : r.run (ps ++ qs) = r'.run qs := by
  induction ps generalizing r with
  | nil =>
      cases h
      rfl
  | cons p ps ih =>
      rw [List.cons_append, run]
      rw [run] at h
      split at h
      · exact ih h
      · cases h

end Stacks

section Completeness

variable {k j : Nat} {n : Nonterminal} {t l r : Condition} {ls rs : List Lexeme}

/-- Where an operand is wanted, the lexemes are read as a condition, which is `t` once the
operators that bind at least as strongly as `k` are applied. -/
def ReadsChain (k : Nat) (t : Condition) (ls : List Lexeme) : Prop :=
  ∀ ps : List Placed, ps.map Placed.lexeme = ls → ∀ stack, Weaker k stack →
    ∃ stack' c, (Reading.operand stack).run ps = .ok (.value stack' c) ∧
      combine k stack' c = (stack, t)

/-- Where an operand is wanted, the lexemes are read as the operand `t`. -/
def ReadsOperand (t : Condition) (ls : List Lexeme) : Prop :=
  ∀ ps : List Placed, ps.map Placed.lexeme = ls → ∀ stack,
    (Reading.operand stack).run ps = .ok (.value (negate stack t).1 (negate stack t).2)

theorem ReadsOperand.readsChain (h : ReadsOperand t ls) (k : Nat) : ReadsChain k t ls := by
  intro ps hps stack hstack
  refine ⟨stack, t, ?_, hstack.combine t⟩
  rw [h ps hps stack, hstack.negate t]

theorem ReadsChain.weaken (h : ReadsChain j t ls) (hkj : k ≤ j) : ReadsChain k t ls := by
  intro ps hps stack hstack
  obtain ⟨stack', c, hrun, hcombine⟩ := h ps hps stack (hstack.mono hkj)
  refine ⟨stack', c, hrun, ?_⟩
  rw [← combine_combine hkj, hcombine]
  exact hstack.combine t

theorem ReadsChain.operator (op : Operator) (hl : ReadsChain op.strength l ls)
    (hr : ReadsChain j r rs) (hj : op.strength < j) :
    ReadsChain op.strength (op.apply l r) (ls ++ op.lexeme :: rs) := by
  intro ps hps stack hstack
  obtain ⟨before, after, rfl, hbefore, hafter⟩ := List.map_eq_append_iff.1 hps
  obtain ⟨p, after, rfl, hp, hafter⟩ := List.map_eq_cons_iff.1 hafter
  obtain ⟨stack₁, c₁, hrun₁, hcombine₁⟩ := hl before hbefore stack hstack
  -- The operator is pushed with what is left of it, and weaker ones stay below it.
  have hstep : (Reading.value stack₁ c₁).step p = .ok (.operand (.operator op l :: stack)) := by
    simp [Reading.step, readOperator, hp, Operator.ofLexeme?_eq_some.2 rfl, hcombine₁]
  obtain ⟨stack₂, c₂, hrun₂, hcombine₂⟩ := hr after hafter (.operator op l :: stack) hj
  refine ⟨stack₂, c₂, ?_, ?_⟩
  · rw [Reading.run_append hrun₁, Reading.run, hstep]
    exact hrun₂
  · rw [← combine_combine (Nat.le_of_lt hj), hcombine₂, combine, if_pos (Nat.le_refl _)]
    exact hstack.combine _

theorem ReadsChain.group (h : ReadsChain 1 t ls) :
    ReadsOperand t (.opening :: (ls ++ [.closing])) := by
  intro ps hps stack
  obtain ⟨p, ps, rfl, hp, hps⟩ := List.map_eq_cons_iff.1 hps
  obtain ⟨inner, last, rfl, hinner, hlast⟩ := List.map_eq_append_iff.1 hps
  obtain ⟨q, rfl, hq⟩ := List.map_eq_singleton_iff.1 hlast
  obtain ⟨stack', c, hrun, hcombine⟩ := h inner hinner (.group p.offset :: stack) trivial
  have hall : combine 0 stack' c = (.group p.offset :: stack, t) := by
    rw [← combine_combine (Nat.zero_le 1), hcombine]
    rfl
  have hopen : (Reading.operand stack).step p = .ok (.operand (.group p.offset :: stack)) := by
    simp [Reading.step, readOperand, hp]
  have hclose : (Reading.value stack' c).step q =
      .ok (.value (negate stack t).1 (negate stack t).2) := by
    simp [Reading.step, readOperator, hq, Operator.ofLexeme?, hall]
  rw [Reading.run, hopen]
  dsimp only
  rw [Reading.run_append hrun, Reading.run, hclose]
  rfl

theorem ReadsOperand.negation (h : ReadsOperand t ls) :
    ReadsOperand (.negation t) (.bang :: ls) := by
  intro ps hps stack
  obtain ⟨p, ps, rfl, hp, hps⟩ := List.map_eq_cons_iff.1 hps
  have hstep : (Reading.operand stack).step p = .ok (.operand (.negation :: stack)) := by
    simp [Reading.step, readOperand, hp]
  rw [Reading.run, hstep]
  exact h ps hps (.negation :: stack)

theorem readsOperand_ident (text : List Char) :
    ReadsOperand (.symbol (String.ofList text)) [.name text] := by
  intro ps hps stack
  obtain ⟨p, rfl, hp⟩ := List.map_eq_singleton_iff.1 hps
  simp [Reading.run, Reading.step, readOperand, hp]

/-- What the derivations of a nonterminal are read as. -/
def Reads : Nonterminal → Condition → List Lexeme → Prop
  | .unary, t, ls | .primary, t, ls => ReadsOperand t ls
  | n, t, ls => ReadsChain n.strength t ls

theorem Derives.reads (h : Derives n t ls) : Reads n t ls := by
  induction h with
  | ident text => exact readsOperand_ident text
  | group _ ih => exact ReadsChain.group ih
  | primary _ ih => exact ih
  | negation _ ih => exact ReadsOperand.negation ih
  | unary _ ih => exact ReadsOperand.readsChain ih 3
  | equal _ _ ihl ihr =>
      exact ReadsChain.operator .equal ihl (ReadsOperand.readsChain ihr 4) (by decide)
  | differ _ _ ihl ihr =>
      exact ReadsChain.operator .differ ihl (ReadsOperand.readsChain ihr 4) (by decide)
  | comparison _ ih => exact ReadsChain.weaken ih (by decide)
  | both _ _ ihl ihr => exact ReadsChain.operator .both ihl ihr (by decide)
  | conjunction _ ih => exact ReadsChain.weaken ih (by decide)
  | either _ _ ihl ihr => exact ReadsChain.operator .either ihl ihr (by decide)

theorem parse_of_derives {cs : List Char} (h : Derives .either t ls) (hcs : Spells ls cs) :
    parse cs = .ok t := by
  have hmap := lexemesFrom_of_spells hcs h.alternates.chain h.alternates.stray 0
  obtain ⟨stack, c, hrun, hcombine⟩ := h.reads _ hmap [] trivial
  unfold parse lexemes
  cases hlexemes : lexemesFrom 0 0 cs with
  | nil =>
      obtain ⟨a, ha, _⟩ := h.alternates.starts
      simp [← hmap, hlexemes] at ha
  | cons p rest =>
      have hall : combine 0 stack c = ([], t) := by
        rw [← combine_combine (Nat.zero_le Nonterminal.either.strength), hcombine]
        rfl
      have hclosed : openGroup? stack = none := by
        rw [← openGroup?_combine 0 stack c, hall]
        rfl
      simp only [← hlexemes, hrun, Reading.finish, hclosed, hall]

end Completeness

/-- The lexemes that a stack was read from. Operators stand above weaker ones only. -/
inductive Stacked : List Pending → List Lexeme → Prop
  | nil : Stacked [] []
  | negation {stack ls} (below : Stacked stack ls) :
      Stacked (.negation :: stack) (ls ++ [.bang])
  | group {stack ls offset} (below : Stacked stack ls) :
      Stacked (.group offset :: stack) (ls ++ [.opening])
  | operator {op left stack ls ms} (below : Stacked stack ls) (weaker : Weaker op.strength stack)
      (side : Derives op.chain left ms) :
      Stacked (.operator op left :: stack) (ls ++ (ms ++ [op.lexeme]))

/-- The lexemes `ls` are those of a stack and then those of a condition above it. -/
def Topped (stack : List Pending) (n : Nonterminal) (c : Condition) (ls : List Lexeme) : Prop :=
  ∃ below top, ls = below ++ top ∧ Stacked stack below ∧ Derives n c top

/-- The lexemes that a reader has read. -/
def Reading.Follows : Reading → List Lexeme → Prop
  | operand stack, ls => Stacked stack ls
  | value stack c, ls => Topped stack .unary c ls ∧ Weaker Nonterminal.unary.strength stack

section Soundness

variable {k : Nat} {n : Nonterminal} {c t : Condition} {stack : List Pending} {ls ms : List Lexeme}

theorem negate_topped (h : Topped stack .unary c ls) :
    Topped (negate stack c).1 .unary (negate stack c).2 ls ∧
      Weaker Nonterminal.unary.strength (negate stack c).1 := by
  fun_induction negate stack c generalizing ls with
  | case1 stack c ih =>
      obtain ⟨_, top, rfl, hbelow, htop⟩ := h
      cases hbelow with
      | @negation _ below hbelow =>
          exact ih ⟨below, .bang :: top, by simp, hbelow, .negation htop⟩
  | case2 stack c htop =>
      refine ⟨h, ?_⟩
      cases stack with
      | nil => trivial
      | cons top below =>
          cases top with
          | negation => exact absurd rfl (htop below)
          | group => trivial
          | operator op left => exact op.strength_lt_unary

/-- Applying operators keeps the lexemes and leaves a stronger one nowhere. -/
theorem combine_topped (h : Topped stack n c ls) (hweaker : Weaker n.strength stack)
    (hk : k ≤ n.strength) :
    ∃ m : Nonterminal, k ≤ m.strength ∧
      Topped (combine k stack c).1 m (combine k stack c).2 ls ∧
      Weaker k (combine k stack c).1 := by
  fun_induction combine k stack c generalizing n ls with
  | case1 op left stack c hop ih =>
      obtain ⟨_, top, rfl, hbelow, htop⟩ := h
      cases hbelow with
      | @operator _ _ _ below side hbelow hlower hside =>
          refine ih ⟨below, _, ?_, hbelow, hside.chain htop hweaker⟩ ?_ ?_
          · simp
          · rwa [op.strength_chain]
          · rwa [op.strength_chain]
  | case2 op left stack c hop => exact ⟨n, hk, h, Nat.lt_of_not_le hop⟩
  | case3 stack c htop =>
      refine ⟨n, hk, h, ?_⟩
      cases stack with
      | nil => trivial
      | cons top below =>
          cases top with
          | negation => exact hweaker
          | group => trivial
          | operator op left => exact absurd rfl (htop op left below)

theorem follows_negate {c : Condition} (hstack : Stacked stack ls) (hc : Derives .unary c ms) :
    (Reading.value (negate stack c).1 (negate stack c).2).Follows (ls ++ ms) :=
  negate_topped ⟨ls, ms, rfl, hstack, hc⟩

theorem readOperand_follows {p : Placed} {r : Reading} (h : Stacked stack ls)
    (hr : readOperand stack p = .ok r) : r.Follows (ls ++ [p.lexeme]) := by
  unfold readOperand at hr
  split at hr
  · rename_i text hp
    cases hr
    rw [hp]
    exact follows_negate h (.primary (.ident text))
  · rename_i hp
    cases hr
    rw [hp]
    exact .negation h
  · rename_i hp
    cases hr
    rw [hp]
    exact .group h
  · cases hr

theorem readOperator_follows {p : Placed} {r : Reading} (h : Topped stack .unary c ls)
    (hweaker : Weaker Nonterminal.unary.strength stack) (hr : readOperator stack c p = .ok r) :
    r.Follows (ls ++ [p.lexeme]) := by
  unfold readOperator at hr
  split at hr
  · rename_i op hop
    cases hr
    rw [Operator.ofLexeme?_eq_some.1 hop]
    obtain ⟨m, hm, ⟨below, top, rfl, hbelow, htop⟩, hlower⟩ :=
      combine_topped h hweaker (Nat.le_of_lt op.strength_lt_unary)
    rw [List.append_assoc]
    exact .operator hbelow hlower (htop.weaken (op.strength_chain ▸ hm))
  · split at hr
    · rename_i offset outer inner hp hcombine
      cases hr
      obtain ⟨m, -, ⟨_, top, rfl, hbelow, htop⟩, -⟩ :=
        combine_topped h hweaker (Nat.zero_le _)
      rw [hcombine] at hbelow htop
      rw [hp]
      cases hbelow with
      | @group _ below _ hbelow =>
          have heither : Derives .either inner top := htop.weaken (by cases m <;> decide)
          have hgroup := follows_negate hbelow (.primary (.group heither))
          simpa using hgroup
    · cases hr

theorem run_follows {r r' : Reading} {ps : List Placed} (h : r.Follows ls)
    (hrun : r.run ps = .ok r') : r'.Follows (ls ++ ps.map Placed.lexeme) := by
  induction ps generalizing r ls with
  | nil =>
      cases hrun
      simpa using h
  | cons p ps ih =>
      rw [Reading.run] at hrun
      split at hrun
      · rename_i next hstep
        have hnext : next.Follows (ls ++ [p.lexeme]) := by
          cases r with
          | operand stack => exact readOperand_follows h hstep
          | value stack c => exact readOperator_follows h.1 h.2 hstep
        simpa using ih hnext hrun
      · cases hrun

theorem follows_of_run {r : Reading} {ps : List Placed}
    (hrun : (Reading.operand []).run ps = .ok r) : r.Follows (ps.map Placed.lexeme) := by
  have hstart : (Reading.operand []).Follows [] := .nil
  exact run_follows hstart hrun

theorem finish_derives {r : Reading} {offset : Nat} (h : r.Follows ls)
    (hfinish : r.finish offset = .ok t) : Derives .either t ls := by
  cases r with
  | operand stack => cases hfinish
  | value stack c =>
      simp only [Reading.finish] at hfinish
      split at hfinish
      · cases hfinish
      · rename_i hclosed
        cases hfinish
        obtain ⟨m, -, ⟨below, top, rfl, hbelow, htop⟩, hweaker⟩ :=
          combine_topped h.1 h.2 (Nat.zero_le _)
        -- Neither an operator nor a parenthesis is left, so the stack is empty.
        have hempty : (combine 0 stack c).1 = [] := by
          rw [← openGroup?_combine 0 stack c] at hclosed
          cases hstack : (combine 0 stack c).1 with
          | nil => rfl
          | cons top below =>
              rw [hstack] at hweaker hclosed
              cases top with
              | negation => cases hweaker
              | group => cases hclosed
              | operator => cases hweaker
        rw [hempty] at hbelow
        cases hbelow
        exact htop.weaken (by cases m <;> decide)

theorem derives_of_parse {cs : List Char} (h : parse cs = .ok t) :
    Derives .either t ((lexemes cs).map Placed.lexeme) := by
  unfold parse at h
  split at h
  · cases h
  · rename_i p rest hlexemes
    split at h
    · rename_i r hrun
      rw [hlexemes]
      exact finish_derives (follows_of_run hrun) h
    · cases h

end Soundness

/-- Every name in the condition is an identifier. -/
def Named : Condition → Prop
  | symbol name => IsIdent name.toList
  | negation c => c.Named
  | both l r | either l r | equal l r | differ l r => l.Named ∧ r.Named

def enclosed (ls : List Lexeme) : List Lexeme := .opening :: (ls ++ [.closing])

/-- The lexemes of a condition, with parentheses around each part that is not a name. -/
def parenthesised : Condition → List Lexeme
  | symbol name => [.name name.toList]
  | negation c => enclosed (.bang :: c.parenthesised)
  | both l r => enclosed (l.parenthesised ++ .both :: r.parenthesised)
  | either l r => enclosed (l.parenthesised ++ .either :: r.parenthesised)
  | equal l r => enclosed (l.parenthesised ++ .equal :: r.parenthesised)
  | differ l r => enclosed (l.parenthesised ++ .differ :: r.parenthesised)

/-- The text of a condition, with parentheses around each part that is not a name. -/
def render (t : Condition) : List Char := t.parenthesised.flatMap Lexeme.text

theorem Derives.enclosed_chain (op : Operator) {l r : Condition} {ls rs : List Lexeme}
    (hl : Derives .primary l ls) (hr : Derives .primary r rs) :
    Derives .primary (op.apply l r) (enclosed (ls ++ op.lexeme :: rs)) := by
  have hchain : Derives op.chain (op.apply l r) (ls ++ op.lexeme :: rs) :=
    (hl.weaken (by cases op <;> decide)).chain hr (by cases op <;> decide)
  exact .group (hchain.weaken (by cases op <;> decide))

theorem derives_parenthesised (t : Condition) : Derives .primary t t.parenthesised := by
  induction t with
  | symbol name =>
      have hident := Derives.ident name.toList
      rwa [String.ofList_toList] at hident
  | negation c ih =>
      have hunary : Derives .unary (.negation c) (.bang :: c.parenthesised) :=
        .negation (.primary ih)
      exact .group (hunary.weaken (by decide))
  | both l r ihl ihr => exact ihl.enclosed_chain .both ihr
  | either l r ihl ihr => exact ihl.enclosed_chain .either ihr
  | equal l r ihl ihr => exact ihl.enclosed_chain .equal ihr
  | differ l r ihl ihr => exact ihl.enclosed_chain .differ ihr

theorem isIdent_of_mem_parenthesised {t : Condition} (h : t.Named) {text : List Char}
    (htext : Lexeme.name text ∈ t.parenthesised) : IsIdent text := by
  induction t with
  | symbol name =>
      obtain rfl : text = name.toList := by simpa [parenthesised] using htext
      exact h
  | negation c ih =>
      exact ih h (by simpa [parenthesised, enclosed] using htext)
  | both l r ihl ihr | either l r ihl ihr | equal l r ihl ihr | differ l r ihl ihr =>
      have hside : Lexeme.name text ∈ l.parenthesised ∨
          Lexeme.name text ∈ r.parenthesised := by
        simpa [parenthesised, enclosed] using htext
      exact hside.elim (ihl h.1) (ihr h.2)

theorem spells_render {t : Condition} (h : t.Named) : Spells t.parenthesised t.render := by
  have halternates := (derives_parenthesised t).alternates
  exact spells_flatMap (fun _ => isIdent_of_mem_parenthesised h) halternates.chain halternates.stray

/-- A text is read as a condition exactly if it spells a derivation of that condition; so every
condition is read back from its text with all parentheses. -/
theorem parse_eq_ok_iff_derives (cs : List Char) (t : Condition) :
    (parse cs = .ok t ↔ ∃ ls, Derives .either t ls ∧ Spells ls cs) ∧
      (t.Named → parse t.render = .ok t) := by
  refine ⟨⟨?_, ?_⟩, ?_⟩
  · intro h
    exact ⟨_, derives_of_parse h, spells_lexemesFrom 0 cs⟩
  · rintro ⟨ls, hderives, hspells⟩
    exact parse_of_derives hderives hspells
  · intro hnamed
    exact parse_of_derives ((derives_parenthesised t).weaken (by decide)) (spells_render hnamed)

example : parse "A||!B!=C==D&& (E)".toList =
    .ok (.either (.symbol "A") (.both
      (.equal (.differ (.negation (.symbol "B")) (.symbol "C")) (.symbol "D")) (.symbol "E"))) := by
  decide

end AsmIndex.Condition

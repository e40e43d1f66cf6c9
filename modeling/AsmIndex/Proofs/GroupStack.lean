import AsmIndex.Proofs.ConditionalBlocks
import AsmIndex.Proofs.TextConcatenation
import Mathlib.Data.List.Nodup

/-!
The stack of open groups after any lines, well nested or not. Each group is kept together with its
current branch, which the directives alone determine. A line leaves this stack as it is, opens a
group, starts a branch of the innermost one or closes it; so the flags of the groups agree with
each other at every depth, and once a branch of a group has been active, no other branch of the
group ever is.
-/

namespace AsmIndex.Source

/-- The flags of open groups agree, the innermost of which comes first. -/
structure Framed (groups : List Group) : Prop where
  outermost : ∀ g ∈ groups.getLast?, g.outerActive = true
  inner : groups.IsChain fun g outer => g.outerActive = outer.active
  active : ∀ g ∈ groups, g.active = true → g.outerActive = true ∧ g.taken = true
  seenElse : ∀ g ∈ groups, g.seenElse = true → g.taken = true

/-- A branch: the line of the `#if` of its group, and the line of the directive that starts it. -/
structure Branch where
  group : Nat
  start : Nat
deriving DecidableEq

/-- Line `n` starts another branch of the innermost group. -/
def Branch.restart (n : Nat) : List Branch → List Branch
  | [] => []
  | b :: outer => ⟨b.group, n⟩ :: outer

/-- The branches around what follows a directive, the innermost of which comes first. -/
def Branch.follow (around : List Branch) (p : Nat × Directive) : List Branch :=
  match p.2.keyword with
  | .ifHolds => ⟨p.1, p.1⟩ :: around
  | .elseIf | .otherwise => restart p.1 around
  | .endIf => around.tail
  | _ => around

/-- The current branches of the groups that are open after lines. -/
def currentBranches (texts : List (List Char)) : List Branch :=
  (directivesFrom 0 (maskedLines false texts)).foldl Branch.follow []

/-- What lines leave, where the symbols of `incoming` are defined before them. -/
def leftBy (incoming : Symbols) (texts : List (List Char)) : State :=
  (State.lines { symbols := incoming } 0 texts).1

/-- Those of the current branches after lines that are active. -/
def activeBranches (incoming : Symbols) (texts : List (List Char)) : List Branch :=
  (((currentBranches texts).zip (leftBy incoming texts).groups).filter (·.2.active)).map Prod.fst

/-- What line `n` does to the open groups and their current branches. Of a group without an active
branch so far, a new branch may be active. -/
inductive Restacks (n : Nat) : List (Branch × Group) → List (Branch × Group) → Prop
  | keeps {stack} : Restacks n stack stack
  | opens {stack} (outerActive holds : Bool) (around : outerActive = stack.head?.all (·.2.active))
      (within : holds = true → outerActive = true) :
      Restacks n stack ((⟨n, n⟩, ⟨n, outerActive, holds, holds, false⟩) :: stack)
  | branches {b g outer} (holds last : Bool)
      (first : holds = true → g.outerActive = true ∧ g.taken = false) :
      Restacks n ((b, g) :: outer)
        ((⟨b.group, n⟩, { g with
          active := holds
          taken := g.taken || (holds || last)
          seenElse := g.seenElse || last }) :: outer)
  | closes {p outer} : Restacks n (p :: outer) outer

/-- Line `n` makes a stack with these groups and these branches of a stack. -/
def Restacked (n : Nat) (stack : List (Branch × Group)) (groups : List Group)
    (around : List Branch) :
    Prop :=
  ∃ stack', Restacks n stack stack' ∧ groups = stack'.map Prod.snd ∧
    around = stack'.map Prod.fst

namespace State

theorem active_eq_head (s : State) : s.active = s.groups.head?.all Group.active := by
  unfold active
  cases s.groups <;> rfl

variable {s : State} {n : Nat} {stack : List (Branch × Group)}

theorem restacked_openGroup (hs : s.groups = stack.map Prod.snd) (d : Directive) :
    Restacked n stack (s.openGroup n d).1.groups (⟨n, n⟩ :: stack.map Prod.fst) := by
  have haround : s.active = stack.head?.all (·.2.active) := by
    rw [active_eq_head, hs, List.head?_map, Option.all_map]
  unfold openGroup
  generalize htest : (if s.active then s.test n d.argumentColumn d.argument else (false, [])) =
    result
  have hwithin : result.1 = true → s.active = true := by
    intro hholds
    cases hactive : s.active with
    | true => rfl
    | false =>
        rw [← htest, hactive] at hholds
        cases hholds
  exact ⟨_, .opens s.active result.1 haround hwithin, by rw [hs]; rfl, rfl⟩

theorem restacked_nextBranch (hs : s.groups = stack.map Prod.snd) (d : Directive) :
    Restacked n stack (s.nextBranch n d).1.groups (Branch.restart n (stack.map Prod.fst)) := by
  unfold nextBranch
  cases stack with
  | nil => exact ⟨[], .keeps, by simp [hs], rfl⟩
  | cons p outer =>
      obtain ⟨b, g⟩ := p
      simp only [hs, List.map_cons]
      generalize htest : (if g.outerActive && !g.taken then s.test n d.argumentColumn d.argument
        else (false, [])) = result
      have hfirst : result.1 = true → g.outerActive = true ∧ g.taken = false := by
        intro hholds
        rw [← htest] at hholds
        split at hholds
        · simp_all
        · cases hholds
      exact ⟨_, .branches result.1 false hfirst, by simp, rfl⟩

theorem restacked_lastBranch (hs : s.groups = stack.map Prod.snd) (d : Directive) :
    Restacked n stack (s.lastBranch n d).1.groups (Branch.restart n (stack.map Prod.fst)) := by
  unfold lastBranch
  cases stack with
  | nil => exact ⟨[], .keeps, by simp [hs], rfl⟩
  | cons p outer =>
      obtain ⟨b, g⟩ := p
      simp only [hs, List.map_cons]
      have hfirst : (g.outerActive && !g.taken) = true → g.outerActive = true ∧
          g.taken = false := by
        simp
      exact ⟨_, .branches _ true hfirst, by simp, rfl⟩

theorem restacked_closeGroup (hs : s.groups = stack.map Prod.snd) (d : Directive) :
    Restacked n stack (s.closeGroup n d).1.groups (stack.map Prod.fst).tail := by
  unfold closeGroup
  cases stack with
  | nil => exact ⟨[], .keeps, by simp [hs], rfl⟩
  | cons p outer => exact ⟨outer, .closes, by simp [hs], rfl⟩

theorem restacked_unconditional (hs : s.groups = stack.map Prod.snd) {d : Directive}
    (hd : d.keyword.isConditional = false) :
    Restacked n stack (s.directive n d).1.groups (stack.map Prod.fst) := by
  refine ⟨stack, .keeps, ?_, rfl⟩
  cases hactive : s.active with
  | false => rw [directive_inactive s hactive n hd, hs]
  | true => rw [directive_plain s hactive n hd, hs]

theorem restacked_directive (hs : s.groups = stack.map Prod.snd) (d : Directive) :
    Restacked n stack (s.directive n d).1.groups (Branch.follow (stack.map Prod.fst) (n, d)) := by
  cases hkeyword : d.keyword with
  | ifHolds =>
      simp only [directive, Branch.follow, hkeyword]
      exact restacked_openGroup hs d
  | elseIf =>
      simp only [directive, Branch.follow, hkeyword]
      exact restacked_nextBranch hs d
  | otherwise =>
      simp only [directive, Branch.follow, hkeyword]
      exact restacked_lastBranch hs d
  | endIf =>
      simp only [directive, Branch.follow, hkeyword]
      exact restacked_closeGroup hs d
  | _ =>
      have hplain := restacked_unconditional (n := n) hs (d := d) (by rw [hkeyword]; rfl)
      simpa only [Branch.follow, hkeyword] using hplain

theorem restacked_maskedLine (hs : s.groups = stack.map Prod.snd) (cs : List Char) :
    Restacked n stack (s.maskedLine n cs).1.groups
      (((Directive.ofLine? cs).map (n, ·)).toList.foldl Branch.follow (stack.map Prod.fst)) := by
  unfold maskedLine
  cases Directive.ofLine? cs with
  | none => exact ⟨stack, .keeps, hs, rfl⟩
  | some d => exact restacked_directive hs d

/-- What every line keeps, lines keep. -/
theorem bareLines_keeps {Kept : Nat → List (Branch × Group) → Prop}
    (hstep : ∀ n stack stack', Restacks n stack stack' → Kept n stack → Kept (n + 1) stack')
    (hs : s.groups = stack.map Prod.snd) (hstack : Kept n stack) (texts : List (List Char)) :
    ∃ stack', (s.bareLines n texts).1.groups = stack'.map Prod.snd ∧
      (directivesFrom n texts).foldl Branch.follow (stack.map Prod.fst) = stack'.map Prod.fst ∧
      Kept (n + texts.length) stack' := by
  induction texts generalizing s n stack with
  | nil => exact ⟨stack, hs, rfl, hstack⟩
  | cons cs rest ih =>
      obtain ⟨stack₁, hline, hgroups, hbranches⟩ := restacked_maskedLine (n := n) hs cs
      obtain ⟨stack₂, hgroups₂, hbranches₂, hkept⟩ :=
        ih hgroups (hstep _ _ _ hline hstack)
      refine ⟨stack₂, hgroups₂, ?_, ?_⟩
      · rw [directivesFrom, List.foldl_append, hbranches, hbranches₂]
      · rwa [List.length_cons, Nat.add_comm rest.length, ← Nat.add_assoc]

end State

theorem Framed.nil : Framed [] := ⟨by simp, .nil, by simp, by simp⟩

theorem framed_cons {g : Group} {outer : List Group} :
    Framed (g :: outer) ↔ g.outerActive = outer.head?.all Group.active ∧
      (g.active = true → g.outerActive = true ∧ g.taken = true) ∧
      (g.seenElse = true → g.taken = true) ∧ Framed outer := by
  constructor
  · rintro ⟨houtermost, hinner, hactive, hseenElse⟩
    simp only [List.forall_mem_cons] at hactive hseenElse
    cases outer with
    | nil => exact ⟨houtermost g rfl, hactive.1, hseenElse.1, .nil⟩
    | cons g' outer =>
        rw [List.isChain_cons_cons] at hinner
        rw [List.getLast?_cons_cons] at houtermost
        exact ⟨hinner.1, hactive.1, hseenElse.1, houtermost, hinner.2, hactive.2, hseenElse.2⟩
  · rintro ⟨houter, hactive, hseenElse, hrest⟩
    refine ⟨?_, ?_, List.forall_mem_cons.2 ⟨hactive, hrest.active⟩,
      List.forall_mem_cons.2 ⟨hseenElse, hrest.seenElse⟩⟩
    · cases outer with
      | nil => simpa using houter
      | cons g' outer =>
          rw [List.getLast?_cons_cons]
          exact hrest.outermost
    · cases outer with
      | nil => exact .singleton g
      | cons g' outer => exact List.isChain_cons_cons.2 ⟨houter, hrest.inner⟩

/-- The innermost branch is active just where all are. -/
theorem Framed.head_active {groups : List Group} (h : Framed groups) :
    groups.head?.all Group.active = true ↔ ∀ g ∈ groups, g.active = true := by
  induction groups with
  | nil => simp
  | cons g outer ih =>
      obtain ⟨houter, hactive, -, hrest⟩ := framed_cons.1 h
      rw [List.forall_mem_cons, ← ih hrest, ← houter]
      exact ⟨fun hg => ⟨hg, (hactive hg).1⟩, And.left⟩

/-- The groups are those of their branches, they are open since different lines before line `n`,
and their flags agree. -/
structure Orderly (n : Nat) (stack : List (Branch × Group)) : Prop where
  framed : Framed (stack.map Prod.snd)
  line : ∀ p ∈ stack, p.2.line = p.1.group
  older : ∀ p ∈ stack, p.1.group < n
  distinct : (stack.map (·.1.group)).Nodup

theorem Restacks.orderly {n : Nat} {stack stack' : List (Branch × Group)}
    (h : Restacks n stack stack') (hs : Orderly n stack) : Orderly (n + 1) stack' := by
  obtain ⟨hframed, hline, holder, hdistinct⟩ := hs
  have hlater : ∀ p ∈ stack, p.1.group < n + 1 := fun p hp => Nat.lt_succ_of_lt (holder p hp)
  cases h with
  | keeps => exact ⟨hframed, hline, hlater, hdistinct⟩
  | opens outerActive holds around within =>
      refine ⟨framed_cons.2 ⟨?_, fun hholds => ⟨within hholds, hholds⟩, by simp, hframed⟩,
        List.forall_mem_cons.2 ⟨rfl, hline⟩,
        List.forall_mem_cons.2 ⟨Nat.lt_succ_self n, hlater⟩,
        List.nodup_cons.2 ⟨?_, hdistinct⟩⟩
      · rw [List.head?_map, Option.all_map]
        exact around
      · intro hmem
        obtain ⟨p, hp, hgroup⟩ := List.mem_map.1 hmem
        exact absurd (holder p hp) (by simp [hgroup])
  | @branches b g outer holds last first =>
      obtain ⟨houter, -, hseenElse, hrest⟩ := framed_cons.1 hframed
      rw [List.forall_mem_cons] at hline hlater
      refine ⟨framed_cons.2 ⟨houter, fun hholds => ⟨(first hholds).1, ?_⟩, ?_, hrest⟩,
        List.forall_mem_cons.2 hline, List.forall_mem_cons.2 hlater, hdistinct⟩
      · simp_all
      · intro helse
        rcases Bool.or_eq_true_iff.1 helse with helse | hlast
        · have htaken : g.taken = true := hseenElse helse
          simp [htaken]
        · simp [hlast]
  | closes =>
      exact ⟨(framed_cons.1 hframed).2.2.2, (List.forall_mem_cons.1 hline).2,
        (List.forall_mem_cons.1 hlater).2, (List.nodup_cons.1 hdistinct).2⟩

/-- The group of a branch is closed, or the branch is the only one of it that was or will be
active. -/
def Spent (b : Branch) (n : Nat) (stack : List (Branch × Group)) : Prop :=
  b.group < n ∧
    ∀ p ∈ stack, p.1.group = b.group → p.2.taken = true ∧ (p.2.active = true → p.1 = b)

theorem Orderly.spent {n : Nat} {stack : List (Branch × Group)} (h : Orderly n stack)
    {b : Branch} {g : Group} (hmem : (b, g) ∈ stack) (hactive : g.active = true) :
    Spent b n stack := by
  refine ⟨h.older _ hmem, fun p hp hgroup => ?_⟩
  obtain rfl : p = (b, g) := List.inj_on_of_nodup_map h.distinct hp hmem hgroup
  exact ⟨(h.framed.active g (List.mem_map_of_mem hmem) hactive).2, fun _ => rfl⟩

theorem Restacks.spent {n : Nat} {stack stack' : List (Branch × Group)}
    (h : Restacks n stack stack') {b : Branch} (hs : Spent b n stack) : Spent b (n + 1) stack' := by
  obtain ⟨holder, hspent⟩ := hs
  refine ⟨Nat.lt_succ_of_lt holder, ?_⟩
  cases h with
  | keeps => exact hspent
  | opens =>
      refine List.forall_mem_cons.2 ⟨?_, hspent⟩
      intro hgroup
      exact absurd hgroup (Nat.ne_of_gt holder)
  | @branches b' g outer holds last first =>
      rw [List.forall_mem_cons] at hspent
      refine List.forall_mem_cons.2 ⟨?_, hspent.2⟩
      intro hgroup
      have htaken : g.taken = true := (hspent.1 hgroup).1
      -- The group had its active branch, so the new one is not active.
      refine ⟨by simp [htaken], fun hholds => ?_⟩
      rw [(first hholds).2] at htaken
      cases htaken
  | closes => exact (List.forall_mem_cons.1 hspent).2

theorem directivesFrom_append (n : Nat) (first second : List (List Char)) :
    directivesFrom n (first ++ second) =
      directivesFrom n first ++ directivesFrom (n + first.length) second := by
  induction first generalizing n with
  | nil => rfl
  | cons cs rest ih =>
      rw [List.cons_append, directivesFrom, directivesFrom, ih, List.append_assoc, List.length_cons,
        Nat.add_assoc n 1, Nat.add_comm 1]

theorem groups_leftBy (incoming : Symbols) (texts : List (List Char)) :
    (leftBy incoming texts).groups =
      (State.bareLines { symbols := incoming } 0 (maskedLines false texts)).1.groups := by
  obtain ⟨b, hb⟩ := State.lines_eq_bareLines { symbols := incoming } 0 texts
  rw [leftBy, hb]
  rfl

/-- The open groups after lines, each with its current branch. -/
def stackAfter (incoming : Symbols) (texts : List (List Char)) : List (Branch × Group) :=
  (currentBranches texts).zip (leftBy incoming texts).groups

theorem orderly_stackAfter (incoming : Symbols) (texts : List (List Char)) :
    (leftBy incoming texts).groups = (stackAfter incoming texts).map Prod.snd ∧
      currentBranches texts = (stackAfter incoming texts).map Prod.fst ∧
      Orderly texts.length (stackAfter incoming texts) := by
  have hempty : Orderly 0 [] := ⟨.nil, by simp, by simp, by simp⟩
  obtain ⟨stack, hgroups, hbranches, horderly⟩ :=
    State.bareLines_keeps (s := { symbols := incoming }) (fun _ _ _ => Restacks.orderly) rfl hempty
      (maskedLines false texts)
  rw [← groups_leftBy] at hgroups
  rw [length_maskedLines, Nat.zero_add] at horderly
  have hstack : stack = stackAfter incoming texts := List.zip_of_prod hbranches.symm hgroups.symm
  exact ⟨hstack ▸ hgroups, hstack ▸ hbranches, hstack ▸ horderly⟩

theorem spent_stackAfter (incoming : Symbols) (texts more : List (List Char)) {b : Branch}
    (hb : Spent b texts.length (stackAfter incoming texts)) :
    Spent b (texts.length + more.length) (stackAfter incoming (texts ++ more)) := by
  obtain ⟨hgroups, hbranches, -⟩ := orderly_stackAfter incoming texts
  rw [groups_leftBy] at hgroups
  obtain ⟨stack, hgroups', hbranches', hspent⟩ :=
    State.bareLines_keeps (fun _ _ _ => Restacks.spent (b := b)) hgroups hb
      (maskedLines (commentAfter false texts) more)
  rw [length_maskedLines] at hspent
  have hstack : stack = stackAfter incoming (texts ++ more) := by
    apply List.zip_of_prod
    · rw [← hbranches', ← hbranches, currentBranches, currentBranches, maskedLines_append,
        directivesFrom_append, List.foldl_append, length_maskedLines, Nat.zero_add]
    · rw [← hgroups', groups_leftBy, maskedLines_append,
        State.bareLines_append rfl rfl, length_maskedLines, Nat.zero_add]
  exact hstack ▸ hspent

theorem mem_activeBranches {incoming : Symbols} {texts : List (List Char)} {b : Branch} :
    b ∈ activeBranches incoming texts ↔ ∃ g, (b, g) ∈ stackAfter incoming texts ∧
      g.active = true := by
  simp [activeBranches, stackAfter]

/-- Code counts after lines just where the current branch of every open group is active. -/
theorem active_leftBy (incoming : Symbols) (texts : List (List Char)) :
    (leftBy incoming texts).active = true ↔
      ∀ b ∈ currentBranches texts, b ∈ activeBranches incoming texts := by
  obtain ⟨hgroups, hbranches, horderly⟩ := orderly_stackAfter incoming texts
  rw [State.active_eq_head, hgroups, horderly.framed.head_active, hbranches]
  simp only [List.forall_mem_map, mem_activeBranches]
  constructor
  · intro hall p hp
    exact ⟨p.2, hp, hall p hp⟩
  · intro hall p hp
    obtain ⟨g, hg, hactive⟩ := hall p hp
    have hp' : p = (p.1, g) := List.inj_on_of_nodup_map horderly.distinct hp hg rfl
    rwa [hp']

theorem State.line_plain (s : State) (n : Nat) {cs : List Char} {l : PlainLine}
    (hl : (mask s.inComment cs).1 = l.text) :
    s.line n cs =
      let scan := if s.active then l.run s.symbols n else ⟨skipped n [l.text], s.symbols⟩
      ({ s with symbols := scan.outSymbols, inComment := (mask s.inComment cs).2 },
        scan.findings) := by
  have hline := performs_plain { s with inComment := (mask s.inComment cs).2 } n l
  simp only [Performs, bareLines, Findings.append_empty] at hline
  simp only [State.line, hl]
  exact hline

/-- After any lines, the flags of the open groups agree at every depth. Code counts just where the
current branch of every open group is active: there a line that is no part of the frame of a group
runs, and elsewhere it is skipped. Of one group, no two branches are ever active. -/
theorem groups_framed_after_any_lines (incoming : Symbols) (texts : List (List Char)) :
    let s := leftBy incoming texts
    let n := texts.length
    Framed s.groups ∧
      s.groups.map Group.line = (currentBranches texts).map Branch.group ∧
      (s.active = true ↔ ∀ b ∈ currentBranches texts, b ∈ activeBranches incoming texts) ∧
      (∀ (cs : List Char) (l : PlainLine), (mask s.inComment cs).1 = l.text →
        s.line n cs =
          let scan :=
            if ∀ b ∈ currentBranches texts, b ∈ activeBranches incoming texts then
              l.run s.symbols n
            else ⟨skipped n [l.text], s.symbols⟩
          ({ s with symbols := scan.outSymbols, inComment := (mask s.inComment cs).2 },
            scan.findings)) ∧
      ∀ (more : List (List Char)), ∀ b ∈ activeBranches incoming texts,
        ∀ b' ∈ activeBranches incoming (texts ++ more), b'.group = b.group → b' = b := by
  intro s n
  obtain ⟨hgroups, hbranches, horderly⟩ := orderly_stackAfter incoming texts
  have hactive : s.active = true ↔
      ∀ b ∈ currentBranches texts, b ∈ activeBranches incoming texts :=
    active_leftBy incoming texts
  refine ⟨hgroups ▸ horderly.framed, ?_, hactive, ?_, ?_⟩
  · rw [hgroups, hbranches, List.map_map, List.map_map]
    exact List.map_congr_left horderly.line
  · intro cs l hl
    rw [State.line_plain s n hl]
    simp only [hactive]
  · intro more b hb b' hb' hgroup
    obtain ⟨g, hmem, hg⟩ := mem_activeBranches.1 hb
    obtain ⟨g', hmem', hg'⟩ := mem_activeBranches.1 hb'
    have hspent := spent_stackAfter incoming texts more (horderly.spent hmem hg)
    exact (hspent.2 _ hmem' hgroup).2 hg'

/-- An `#endif` without a group, a group in a branch that is skipped, an active `#else`, and in it
a group with a comment that stays open. -/
def strayLines : List (List Char) :=
  ["#endif", "#if A", "#if B", "#else", "#endif", "#else", "#if !B /* "].map String.toList

/-- A second and a third branch of the innermost group, in the wrong order, and its end. -/
def laterLines : List (List Char) := ["*/ #else", "#elif !B", "#else", "#endif"].map String.toList

theorem groups_framed_after_strayLines :
    (mask (leftBy Symbols.empty strayLines).inComment "*/nop".toList).1 = "  nop".toList ∧
      (⟨1, 5⟩ : Branch) ∈ activeBranches Symbols.empty strayLines ∧
      ((leftBy Symbols.empty strayLines).line 7 "*/nop".toList).2 =
        plainCode Symbols.empty 7 "  nop".toList ∧
      (⟨1, 5⟩ : Branch) ∈ activeBranches Symbols.empty (strayLines ++ laterLines) ∧
      ∀ b ∈ activeBranches Symbols.empty (strayLines ++ laterLines), b.group = 1 →
      b = ⟨1, 5⟩ := by
  have hmask : (mask (leftBy Symbols.empty strayLines).inComment "*/nop".toList).1 =
      "  nop".toList := by decide +kernel
  have hb : (⟨1, 5⟩ : Branch) ∈ activeBranches Symbols.empty strayLines := by decide +kernel
  have hlater : (⟨1, 5⟩ : Branch) ∈ activeBranches Symbols.empty
      (strayLines ++ laterLines) := by
    decide +kernel
  have hall : ∀ b ∈ currentBranches strayLines,
      b ∈ activeBranches Symbols.empty strayLines := by
    decide +kernel
  obtain ⟨-, -, -, hline, honce⟩ := groups_framed_after_any_lines Symbols.empty strayLines
  refine ⟨hmask, hb, ?_, hlater, honce laterLines _ hb⟩
  have hrun := congrArg Prod.snd (hline _ ⟨"  nop".toList, by decide⟩ hmask)
  rw [if_pos hall] at hrun
  exact hrun

example : currentBranches strayLines = [⟨6, 6⟩, ⟨1, 5⟩] ∧
    currentBranches (strayLines ++ laterLines.take 3) = [⟨6, 9⟩, ⟨1, 5⟩] ∧
    activeBranches Symbols.empty (strayLines ++ laterLines.take 3) = [⟨1, 5⟩] := by
  decide +kernel

end AsmIndex.Source

import AsmIndex.Proofs.ScanImports

/-!
Scanning line by line. The comments of a text are taken out of its lines first; what is left of
each line then acts on the symbols and on the open groups alone. Findings of consecutive lines
append.
-/

namespace AsmIndex.Source

namespace Findings

@[simp] theorem mk_append_mk (t t' : List Token) (r r' : List Reference) (o o' : Bool)
    (d d' : List Diagnostic) :
    (⟨t, r, o, d⟩ ++ ⟨t', r', o', d'⟩ : Findings) = ⟨t ++ t', r ++ r', o || o',
      d ++ d'⟩ := rfl

@[simp] theorem empty_append (f : Findings) : ({} : Findings) ++ f = f := by
  change append {} f = f
  simp [append]

@[simp] theorem append_empty (f : Findings) : f ++ ({} : Findings) = f := by
  change append f {} = f
  simp [append]

theorem append_assoc (f g h : Findings) : f ++ g ++ h = f ++ (g ++ h) := by
  change append (append f g) h = append f (append g h)
  simp [append, Bool.or_assoc]

@[simp] theorem tokens_append (f g : Findings) : (f ++ g).tokens = f.tokens ++ g.tokens := rfl

theorem diagnostics_append (f g : Findings) :
    (f ++ g).diagnostics = f.diagnostics ++ g.diagnostics :=
  rfl

end Findings

/-- Lines with spaces for their comments; `inComment` tells whether they start inside one. -/
def maskedLines (inComment : Bool) : List (List Char) → List (List Char)
  | [] => []
  | cs :: rest => (mask inComment cs).1 :: maskedLines (mask inComment cs).2 rest

theorem maskedLines_eq_self {texts : List (List Char)}
    (h : ∀ cs ∈ texts, mask false cs = (cs, false)) : maskedLines false texts = texts := by
  induction texts with
  | nil => rfl
  | cons cs rest ih =>
      rw [maskedLines, h cs (by simp)]
      dsimp only
      rw [ih fun cs hcs => h cs (by simp [hcs])]

namespace State

/-- What lines without comments do, the first of which has the number `n`. -/
def bareLines (s : State) (n : Nat) : List (List Char) → State × Findings
  | [] => (s, {})
  | cs :: rest =>
    let (s, findings) := s.maskedLine n cs
    let (s, more) := s.bareLines (n + 1) rest
    (s, findings ++ more)

theorem bareLines_append {s s₁ s₂ : State} {n : Nat} {first second : List (List Char)}
    {f g : Findings} (h₁ : s.bareLines n first = (s₁, f))
    (h₂ : s₁.bareLines (n + first.length) second = (s₂, g)) :
    s.bareLines n (first ++ second) = (s₂, f ++ g) := by
  induction first generalizing s n f with
  | nil =>
      cases h₁
      simpa using h₂
  | cons cs rest ih =>
      simp only [bareLines] at h₁
      obtain ⟨rfl, rfl⟩ := Prod.mk.inj h₁
      have hrest := ih (n := n + 1) rfl (by rw [← h₂, List.length_cons]; congr 1; omega)
      simp only [List.cons_append, bareLines, hrest, Findings.append_assoc]

/-- The same state, with a comment open or not. -/
def withComment (s : State) (b : Bool) : State := { s with inComment := b }

theorem directive_withComment (s : State) (b : Bool) (n : Nat) (d : Directive) :
    (s.withComment b).directive n d =
      ((s.directive n d).1.withComment b, (s.directive n d).2) := by
  unfold directive
  split
  · rfl
  · simp only [nextBranch, withComment]
    split <;> rfl
  · simp only [lastBranch, withComment]
    split <;> rfl
  · simp only [closeGroup, withComment]
    split <;> rfl
  · change (if !s.active then _ else _) = _
    split
    · rfl
    · split
      · simp only [change, withComment]
        split <;> rfl
      · simp only [change, withComment]
        split <;> rfl
      all_goals rfl

theorem maskedLine_withComment (s : State) (b : Bool) (n : Nat) (cs : List Char) :
    (s.withComment b).maskedLine n cs =
      ((s.maskedLine n cs).1.withComment b, (s.maskedLine n cs).2) := by
  unfold maskedLine
  split
  · rw [directive_withComment]
  · rfl

theorem bareLines_withComment (s : State) (b : Bool) (n : Nat) (texts : List (List Char)) :
    (s.withComment b).bareLines n texts =
      ((s.bareLines n texts).1.withComment b, (s.bareLines n texts).2) := by
  induction texts generalizing s n with
  | nil => rfl
  | cons cs rest ih =>
      simp only [bareLines]
      rw [maskedLine_withComment]
      simp only [ih]

theorem lines_eq_bareLines (s : State) (n : Nat) (texts : List (List Char)) :
    ∃ b, s.lines n texts =
      ((s.bareLines n (maskedLines s.inComment texts)).1.withComment b,
        (s.bareLines n (maskedLines s.inComment texts)).2) := by
  induction texts generalizing s n with
  | nil => exact ⟨s.inComment, rfl⟩
  | cons cs rest ih =>
      have hline : s.line n cs = ((s.maskedLine n (mask s.inComment cs).1).1.withComment
          (mask s.inComment cs).2, (s.maskedLine n (mask s.inComment cs).1).2) :=
        maskedLine_withComment s _ n _
      obtain ⟨b, hb⟩ := ih (s.line n cs).1 (n + 1)
      refine ⟨b, ?_⟩
      rw [inComment_line] at hb
      simp only [lines, maskedLines, bareLines, hb]
      rw [hline]
      simp only [bareLines_withComment]
      rfl

end State

theorem scan_eq_bareLines (text : String) (incoming : Symbols) :
    scan text incoming =
      let texts := maskedLines false (Text.lines text.toList)
      let (s, findings) := State.bareLines { symbols := incoming } 0 texts
      ⟨findings ++ s.finish, s.symbols⟩ := by
  obtain ⟨b, hb⟩ := State.lines_eq_bareLines { symbols := incoming } 0 (Text.lines text.toList)
  simp only [scan, hb]
  rfl

end AsmIndex.Source

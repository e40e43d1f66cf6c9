import AsmIndex.Proofs.ScanTransport
import AsmIndex.Proofs.SymbolSets

/-!
Symbols that a text does not mention. Whether such a symbol is defined or not, the text has the
same tokens, diagnostics and imports; the symbol is merely handed on to the imported files and to
the end.
-/

namespace AsmIndex.Source

/-- The names that a directive mentions: the symbol that it defines or undefines, and those in its
condition. -/
def Directive.names (d : Directive) : List String :=
  d.symbol?.toList ++ d.condition?.toList.flatMap Condition.identifiers

theorem Directive.admits_insert {d : Directive} {name : String} (h : name ∉ d.names) :
    d.Admits fun s => s.insert name := by
  simp only [names, List.mem_append, not_or, Option.mem_toList, List.mem_flatMap, not_exists,
    not_and] at h
  obtain ⟨hsymbol, hcondition⟩ := h
  constructor
  · intro other _ s
    exact s.insert_comm other name
  · intro other hother s
    have hne : name ≠ other := by
      rintro rfl
      exact hsymbol hother
    exact (s.erase_insert_of_ne hne).symm
  · intro cs hcs s
    exact Condition.evaluate_insert (hcondition cs hcs) s

theorem Findings.moved_zero (f : Symbols → Symbols) (x : Findings) :
    x.moved 0 f = { x with references := x.references.map (Reference.under f) } := by
  have htokens : x.tokens.map (Token.shift 0) = x.tokens := List.map_id' _
  have hdiagnostics : x.diagnostics.map (Diagnostic.shift 0) = x.diagnostics := List.map_id' _
  simp only [moved, htokens, hdiagnostics]
  rfl

/-- A map of symbols that agrees with all directives of a text goes through the text. -/
theorem scan_map {text : String} {f : Symbols → Symbols}
    (h : ∀ p ∈ directives text, p.2.Admits f) (incoming : Symbols) :
    scan text (f incoming) =
      ⟨(scan text incoming).findings.moved 0 f, f (scan text incoming).outSymbols⟩ := by
  cases hlines : State.bareLines { symbols := incoming } 0
      (maskedLines false (Text.lines text.toList)) with
  | mk s findings =>
      have hmoved := State.bareLines_moved (k := 0) { symbols := incoming } 0 h
      rw [hlines] at hmoved
      rw [scan_of_bareLines hlines, scan_of_bareLines hmoved, Findings.moved_append,
        State.finish_moved, State.symbols_moved]

/-- A text is scanned alike with and without a symbol that it does not mention. -/
theorem unmentioned_symbol_passes_through (text : String) (incoming : Symbols) (name : String)
    (h : ∀ p ∈ directives text, name ∉ p.2.names) :
    let present := scan text (incoming.insert name)
    let absent := scan text (incoming.erase name)
    present.findings.tokens = absent.findings.tokens ∧
      present.findings.importOnce = absent.findings.importOnce ∧
      present.findings.diagnostics = absent.findings.diagnostics ∧
      present.findings.references =
        absent.findings.references.map (Reference.under (·.insert name)) ∧
      present.outSymbols = absent.outSymbols.insert name := by
  intro present absent
  have hpresent : present =
      ⟨absent.findings.moved 0 (·.insert name), absent.outSymbols.insert name⟩ := by
    rw [← scan_map (fun p hp => Directive.admits_insert (h p hp)), Symbols.insert_erase]
  rw [hpresent, Findings.moved_zero]
  exact ⟨rfl, rfl, rfl, rfl, rfl⟩

/-- `N` stands in a comment, in a file name and in a condition that cannot be read, and is
mentioned by no directive. -/
def blindText : String :=
  "#if A == B\n#define C\n#elif (N\n#else\n#undef A // N\n#importif !A \"N\"\n#endif\n" ++
    ".import source \"m\""

theorem blindText_passes_through :
    (∀ p ∈ directives blindText, "N" ∉ p.2.names) ∧
      let present := scan blindText ((Symbols.ofList ["A", "N"]).insert "N")
      let absent := scan blindText ((Symbols.ofList ["A", "N"]).erase "N")
      present.findings.tokens = absent.findings.tokens ∧
        present.findings.importOnce = absent.findings.importOnce ∧
        present.findings.diagnostics = absent.findings.diagnostics ∧
        present.findings.references =
          absent.findings.references.map (Reference.under (·.insert "N")) ∧
        present.outSymbols = absent.outSymbols.insert "N" := by
  have hnames : ∀ p ∈ directives blindText, "N" ∉ p.2.names := by decide +kernel
  exact ⟨hnames, unmentioned_symbol_passes_through blindText _ "N" hnames⟩

example : (scan blindText (Symbols.ofList ["A", "N"])).findings.references.map (·.active.names) =
      [["N"], ["N"]] ∧
    (scan blindText (Symbols.ofList ["A", "N"])).findings.diagnostics.map Diagnostic.line =
      [2] := by
  decide +kernel

end AsmIndex.Source

import AsmIndex.Symbols

/-!
Conditions of conditional directives: truth-valued expressions over defined symbols.
-/

namespace AsmIndex

/-- A condition. A symbol holds where it is defined; `equal` and `differ` compare truth values. -/
inductive Condition
  | symbol (name : String)
  | negation (c : Condition)
  | both (l r : Condition)
  | either (l r : Condition)
  | equal (l r : Condition)
  | differ (l r : Condition)
deriving DecidableEq, Repr

namespace Condition

/-- The truth value of a condition where the symbols of `s` are defined. -/
def holds (s : Symbols) : Condition → Bool
  | symbol name => s.contains name
  | negation c => !c.holds s
  | both l r => l.holds s && r.holds s
  | either l r => l.holds s || r.holds s
  | equal l r => l.holds s == r.holds s
  | differ l r => l.holds s != r.holds s

end Condition

end AsmIndex

import AsmIndex.Path

/-!
The part of a path below a base directory. The part keeps its inner spelling and loses the
separators and `.` components at its ends.
-/

namespace AsmIndex.Path

/-- Pieces without those at the start that stand for no component. -/
def dropIdle (segs : List (List Char)) : List (List Char) :=
  segs.dropWhile fun s => (component? s).isNone

/-- Pieces without those at the end that stand for no component. -/
def dropIdleEnd (segs : List (List Char)) : List (List Char) := (dropIdle segs.reverse).reverse

/-- Pieces after those of the first `n` components. -/
def dropComponents : Nat → List (List Char) → List (List Char)
  | 0, segs => segs
  | _ + 1, [] => []
  | n + 1, s :: more =>
    if (component? s).isNone then dropComponents (n + 1) more else dropComponents n more

/-- A path without the separators and `.` components at its end. -/
def withoutIdleEnd (p : Path) : Path :=
  let cs := p.text.toList
  let start := if p.isAbsolute || p.startsHere then 1 else 0
  ⟨String.ofList (cs.take start ++ joinSegments (dropIdleEnd (segments (cs.drop start))))⟩

/-- The path below `base`, or the path itself where it is not below `base`. -/
def relativeTo (p base : Path) : Path :=
  if !base.components.isPrefixOf p.components then p
  else
    match base.components.length with
    | 0 => p.withoutIdleEnd
    | n + 1 =>
      let segs := segments p.text.toList
      let below :=
        if p.isAbsolute || p.startsHere then dropComponents n (segs.drop 1)
        else dropComponents (n + 1) segs
      ⟨String.ofList (joinSegments (dropIdleEnd (dropIdle below)))⟩

end AsmIndex.Path

import AsmIndex.Number.Layout
import AsmIndex.Text

/-!
The texts of measured values in a report.
-/

namespace AsmIndex.Report

/-- The quotient `n / d` with `places` decimal places, a half going to the even digit. -/
def fixedPlaces (places n d : Nat) : String :=
  let scaled := Number.Binary64.roundHalfEven (n * Number.tenTo places) d
  let digits := Nat.toDigits 10 (scaled % Number.tenTo places)
  toString (scaled / Number.tenTo places) ++ "."
    ++ String.ofList (List.replicate (places - digits.length) '0' ++ digits)

/-- A number of bytes in the largest unit that it reaches. -/
def byteText (n : Nat) : String :=
  if 1048576 ≤ n then fixedPlaces 1 n 1048576 ++ " MB"
  else if 1024 ≤ n then fixedPlaces 1 n 1024 ++ " KB"
  else toString n ++ " B"

/-- Nanoseconds as milliseconds with two places. -/
def millisecondText (nanoseconds : Nat) : String := fixedPlaces 2 nanoseconds 1000000

/-- Nanoseconds as milliseconds, as exactly as a 64-bit number has them. -/
def exactMillisecondText (nanoseconds : Nat) : String :=
  let value := do
    let seconds ← Number.Binary64.ofRatio? nanoseconds 1000000000
    seconds.mul? (← Number.Binary64.ofRatio? 1000 1)
  value.elim "0.0" (Number.Binary64.render .common)

/-- The number that decimal digits stand for; none where something else is among them. -/
def ofDigits? (cs : List Char) : Option Nat :=
  if cs.isEmpty || !cs.all Char.isDigit then none
  else some (cs.foldl (fun n c => n * 10 + (c.toNat - '0'.toNat)) 0)

/-- The bytes in a line `VmHWM: <n> kB`, which gives the most memory that a process had. -/
def peakOfLine? (line : List Char) : Option Nat :=
  let label := "VmHWM:".toList
  if label.isPrefixOf line then
    let field := Text.trim (line.drop label.length)
    (ofDigits? (field.takeWhile Char.isDigit)).map (· * 1024)
  else none

/-- The most memory that a process had, from the lines that the system keeps about it. -/
def peakOf? (status : String) : Option Nat := (Text.lines status.toList).findSome? peakOfLine?

end AsmIndex.Report

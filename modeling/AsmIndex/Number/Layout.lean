import AsmIndex.Number.Binary64

/-!
The text of a floating number: the fewest digits that round back to it, written without an exponent
where the number is neither very large nor very small.
-/

namespace AsmIndex.Number

/-- Where numbers are written without an exponent: as long as the power of ten of the first digit
is at least `plainFrom` and below `plainBelow`. -/
structure Layout where
  plainFrom : Int
  plainBelow : Int
deriving DecidableEq, Repr

namespace Layout

/-- Numbers of a size from `10 ^ (-5)` to below `10 ^ 16` have no exponent. -/
def common : Layout := ⟨-5, 16⟩

/-- Digits without an exponent, the last of which stands at `10 ^ e`. There is a digit at least on
either side of the point. -/
def plain (digits : List Char) (e : Int) : String :=
  if 0 ≤ e then String.ofList (digits ++ List.replicate e.toNat '0') ++ ".0"
  else
    let places := e.natAbs
    let padded := List.replicate (places + 1 - digits.length) '0' ++ digits
    let whole := padded.take (padded.length - places)
    let fraction := padded.drop (padded.length - places)
    String.ofList whole ++ "." ++ String.ofList fraction

/-- Digits with an exponent, the first of which stands at `10 ^ k`. The exponent has a sign, and a
point stands only before further digits. -/
def scientific (digits : List Char) (k : Int) : String :=
  let further := digits.drop 1
  String.ofList (digits.take 1 ++ if further.isEmpty then [] else '.' :: further)
    ++ (if k < 0 then "e-" else "e+") ++ toString k.natAbs

/-- The text of digits, the last of which stands at `10 ^ e`. -/
def write (l : Layout) (digits : List Char) (e : Int) : String :=
  let k := e + digits.length - 1
  if l.plainFrom ≤ k ∧ k < l.plainBelow then plain digits e else scientific digits k

end Layout

namespace Binary64

/-- Digits without the zeros at their end, each of which raises the exponent by one. The digits are
given from their end. -/
def dropZeros : List Char → Int → List Char × Int
  | '0' :: rest, e => dropZeros rest (e + 1)
  | digits, e => (digits, e)

/-- The shortest text that rounds back to `v`. -/
def render (l : Layout) (v : Binary64) : String :=
  if v.mantissa = 0 then "0.0"
  else
    let (n, e) := v.shortestFrom v.decimalExponent 0 20
    let (digits, e) := dropZeros (Nat.toDigits 10 n).reverse e
    l.write digits.reverse e

end Binary64

end AsmIndex.Number

/-!
Numbers in the 64-bit binary floating format, as exact dyadic values: rounding a quotient to the
nearest representable value, products and quotients, and the shortest decimal text that rounds back.
-/

namespace AsmIndex.Number

/-- The power `2 ^ n`. -/
def twoTo (n : Nat) : Nat := Nat.pow 2 n

/-- The power `10 ^ n`. -/
def tenTo (n : Nat) : Nat := Nat.pow 10 n

/-- The value `mantissa * 2 ^ exponent`, which is zero or representable. -/
structure Binary64 where
  mantissa : Nat
  exponent : Int
deriving DecidableEq, Repr

namespace Binary64

/-- The value zero. -/
def zero : Binary64 := ⟨0, 0⟩

/-- The quotient `n / d` rounded to the nearest natural number, a half to the even one. -/
def roundHalfEven (n d : Nat) : Nat :=
  let q := n / d
  let twice := 2 * (n % d)
  if twice < d then q else if d < twice then q + 1 else if q % 2 = 0 then q else q + 1

/-- The quotient `n / d` divided by `2 ^ e`, as numerator and denominator. -/
def shifted (n d : Nat) (e : Int) : Nat × Nat :=
  if 0 ≤ e then (n, d * twoTo e.toNat) else (n * twoTo (-e).toNat, d)

/-- The representable value nearest to `n / d`, a half going to the even mantissa; none where the
quotient is beyond the largest value. -/
def ofRatio? (n d : Nat) : Option Binary64 :=
  if n = 0 then some zero
  else
    let guess : Int := (n.log2 : Int) - (d.log2 : Int) - 53
    let (a, b) := shifted n d guess
    let e := if twoTo 53 ≤ a / b then guess + 1 else guess
    let e := if e < -1074 then -1074 else e
    let (a, b) := shifted n d e
    let m := roundHalfEven a b
    let (m, e) := if m = twoTo 53 then (twoTo 52, e + 1) else (m, e)
    if 971 < e then none else some (if m = 0 then zero else ⟨m, e⟩)

/-- A value as numerator and denominator. -/
def ratio (v : Binary64) : Nat × Nat :=
  if 0 ≤ v.exponent then (v.mantissa * twoTo v.exponent.toNat, 1)
  else (v.mantissa, twoTo (-v.exponent).toNat)

/-- The rounded product. -/
def mul? (v w : Binary64) : Option Binary64 :=
  let (a, b) := v.ratio
  let (c, d) := w.ratio
  ofRatio? (a * c) (b * d)

/-- The rounded quotient; `w` is not zero. -/
def div? (v w : Binary64) : Option Binary64 :=
  let (a, b) := v.ratio
  let (c, d) := w.ratio
  ofRatio? (a * d) (b * c)

/-- The representable value nearest to `10 ^ k`. -/
def power? (k : Nat) : Option Binary64 := ofRatio? (tenTo k) 1

/-- Divide by `10 ^ k`, in steps of at most `10 ^ 308` that are rounded each. -/
def divPower? : Nat → Nat → Binary64 → Option Binary64
  | 0, _, v => some v
  | fuel + 1, k, v =>
    if v.mantissa = 0 then some zero
    else if k ≤ 308 then (power? k).bind v.div?
    else ((power? 308).bind v.div?).bind (divPower? fuel (k - 308))

/-- Multiply by `10 ^ e`, rounded; none beyond the largest value. -/
def scale? (v : Binary64) (e : Int) : Option Binary64 :=
  if v.mantissa = 0 then some zero
  else if e < 0 then divPower? (e.natAbs / 308 + 1) e.natAbs v
  else if 308 < e then none
  else (power? e.toNat).bind v.mul?

/-- Whether the value `digits * 10 ^ e` rounds to `v`. -/
def rounds (v : Binary64) (digits : Nat) (e : Int) : Bool :=
  let (n, d) := if 0 ≤ e then (digits * tenTo e.toNat, 1) else (digits, tenTo (-e).toNat)
  ofRatio? n d == some v

/-- The decimal exponent of a value that is not zero: the value is at least `10 ^ k` and below
`10 ^ (k + 1)`. -/
def decimalExponent (v : Binary64) : Int :=
  let (n, d) := v.ratio
  if d ≤ n then ((Nat.toDigits 10 (n / d)).length : Int) - 1
  else
    let k := (Nat.toDigits 10 (d / n)).length
    if d ≤ n * tenTo (k - 1) then -(k - 1 : Nat) else -(k : Int)

/-- The neighbours of `v` on the grid of multiples of `10 ^ e`, the nearer first; where both are
as near, the even one. -/
def gridNeighbours (v : Binary64) (e : Int) : List Nat :=
  let (n, d) := v.ratio
  let (a, b) := if 0 ≤ e then (n, d * tenTo e.toNat) else (n * tenTo (-e).toNat, d)
  let low := a / b
  if roundHalfEven a b = low then [low, low + 1] else [low + 1, low]

/-- The shortest digits that round back to `v`, and the exponent of the last one. -/
def shortestFrom (v : Binary64) (top : Int) : Nat → Nat → Nat × Int
  | _, 0 => (0, 0)
  | count, fuel + 1 =>
    let e := top - count
    match (v.gridNeighbours e).find? fun digits => v.rounds digits e with
    | some digits => (digits, e)
    | none => shortestFrom v top (count + 1) fuel

end Binary64

end AsmIndex.Number

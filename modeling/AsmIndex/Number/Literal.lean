import AsmIndex.Number.Binary64

/-!
Number literals: an optional minus sign, digits without a leading zero, an optional fraction and an
optional exponent. A literal without fraction and exponent is an integer as long as it fits 64 bits;
every other one is a floating number.
-/

namespace AsmIndex.Number

/-- The parts of a number literal. -/
structure Parts where
  negative : Bool
  whole : List Char
  fraction : Option (List Char)
  exponent : Option (Bool × List Char)

/-- The value of a literal. -/
inductive Value
  | integer (i : Int)
  | floating (negative : Bool) (v : Binary64)

/-- The parts of a literal after its exponent mark: a sign and digits. -/
def exponentParts? : List Char → Option (Bool × List Char)
  | '+' :: cs => if cs.isEmpty || !cs.all Char.isDigit then none else some (false, cs)
  | '-' :: cs => if cs.isEmpty || !cs.all Char.isDigit then none else some (true, cs)
  | cs => if cs.isEmpty || !cs.all Char.isDigit then none else some (false, cs)

/-- The exponent at the start of what follows the digits, if there is one. -/
def exponentAt? : List Char → Option (Option (Bool × List Char))
  | [] => some none
  | c :: cs => if c = 'e' ∨ c = 'E' then (exponentParts? cs).map some else none

/-- The parts of a literal. -/
def parts? (cs : List Char) : Option Parts :=
  let negative := cs.head? == some '-'
  let cs := if negative then cs.drop 1 else cs
  let whole := cs.takeWhile Char.isDigit
  let rest := cs.dropWhile Char.isDigit
  if whole.isEmpty || (whole.head? == some '0' && 1 < whole.length) then none
  else
    match rest with
    | '.' :: rest =>
      let fraction := rest.takeWhile Char.isDigit
      if fraction.isEmpty then none
      else (exponentAt? (rest.dropWhile Char.isDigit)).map fun e =>
        ⟨negative, whole, some fraction, e⟩
    | rest => (exponentAt? rest).map fun e => ⟨negative, whole, none, e⟩

/-- The largest significand that is kept. -/
def significandLimit : Nat := twoTo 64 - 1

/-- Append digits to a significand as long as it fits; gives the significand and the digits left. -/
def absorb (n : Nat) : List Char → Nat × List Char
  | [] => (n, [])
  | c :: cs =>
    let next := n * 10 + (c.toNat - '0'.toNat)
    if significandLimit < next then (n, c :: cs) else absorb next cs

/-- The natural number that digits write. -/
def digitsValue (cs : List Char) : Nat := cs.foldl (fun n c => n * 10 + (c.toNat - '0'.toNat)) 0

/-- The value of a literal; none where it is beyond the largest floating number. The significand is
cut where it no longer fits 64 bits. -/
def Parts.value? (p : Parts) : Option Value :=
  let (n, left) := absorb 0 p.whole
  if p.fraction.isNone && p.exponent.isNone && left.isEmpty
      && (!p.negative || (0 < n && n ≤ twoTo 63)) then
    some (.integer (if p.negative then -n else n))
  else
    let fraction := p.fraction.getD []
    let (n, unread) := absorb n fraction
    let point : Int := left.length - (fraction.length - unread.length : Nat)
    let v? :=
      match p.exponent with
      | none => (Binary64.ofRatio? n 1).bind (·.scale? point)
      | some (below, digits) =>
        let e := digitsValue digits
        if twoTo 31 ≤ e then if n = 0 || below then some .zero else none
        else (Binary64.ofRatio? n 1).bind (·.scale? (point + if below then -(e : Int) else e))
    v?.map (.floating p.negative)

/-- The value of a literal. -/
def value? (cs : List Char) : Option Value := (parts? cs).bind Parts.value?

end AsmIndex.Number

import AsmIndex.Json
import AsmIndex.Number.Literal

/-!
Reading JSON texts. Of two members of one name the last counts, at the place of the first. Arrays
and objects nest at most `maxDepth` deep.
-/

namespace AsmIndex.Json

/-- How deep arrays and objects may nest. -/
def maxDepth : Nat := 127

/-- The blanks between the parts of a text. -/
def isGap (c : Char) : Bool := c == ' ' || c == '\n' || c == '\t' || c == '\r'

/-- A text without the blanks at its start. -/
def dropGap (cs : List Char) : List Char := cs.dropWhile isGap

/-- The value of a hexadecimal digit. -/
def hexDigit? (c : Char) : Option Nat :=
  if c.isDigit then some (c.toNat - '0'.toNat)
  else if 'a' ≤ c ∧ c ≤ 'f' then some (c.toNat - 'a'.toNat + 10)
  else if 'A' ≤ c ∧ c ≤ 'F' then some (c.toNat - 'A'.toNat + 10)
  else none

/-- The value of four hexadecimal digits. -/
def hexFour? (a b c d : Char) : Option Nat :=
  match hexDigit? a, hexDigit? b, hexDigit? c, hexDigit? d with
  | some a, some b, some c, some d => some (a * 4096 + b * 256 + c * 16 + d)
  | _, _, _, _ => none

/-- The character that a one-letter escape stands for. -/
def escape? : Char → Option Char
  | '"' => some '"'
  | '\\' => some '\\'
  | '/' => some '/'
  | 'b' => some '\x08'
  | 'f' => some '\x0c'
  | 'n' => some '\n'
  | 'r' => some '\r'
  | 't' => some '\t'
  | _ => none

/-- The character of two escapes that stand for the halves of one. -/
def joinHalves? (high low : Nat) : Option Char :=
  if 0xD800 ≤ high && high < 0xDC00 && 0xDC00 ≤ low && low < 0xE000 then
    some (Char.ofNat (0x10000 + (high - 0xD800) * 1024 + (low - 0xDC00)))
  else none

/-- The rest of a string after its opening quote; `held` is the part read so far, from its end. -/
def stringRest (held : List Char) : List Char → Option (String × List Char)
  | [] => none
  | '"' :: rest => some (String.ofList held.reverse, rest)
  | '\\' :: 'u' :: a :: b :: c :: d :: rest =>
    match hexFour? a b c d with
    | none => none
    | some n =>
      if 0xD800 ≤ n && n < 0xE000 then
        match rest with
        | '\\' :: 'u' :: a :: b :: c :: d :: rest =>
          match (hexFour? a b c d).bind (joinHalves? n) with
          | some ch => stringRest (ch :: held) rest
          | none => none
        | _ => none
      else stringRest (Char.ofNat n :: held) rest
  | '\\' :: c :: rest =>
    match escape? c with
    | some ch => stringRest (ch :: held) rest
    | none => none
  | c :: rest => if c.toNat < 0x20 || c == '\\' then none else stringRest (c :: held) rest

/-- A character that may stand in a number literal. -/
def isNumberPart (c : Char) : Bool :=
  c.isDigit || c == '-' || c == '+' || c == '.' || c == 'e' || c == 'E'

/-- The number at the start of a text. -/
def numberAt (cs : List Char) : Option (Json × List Char) :=
  let literal := cs.takeWhile isNumberPart
  (Number.value? literal).map fun _ => (.number (String.ofList literal), cs.dropWhile isNumberPart)

/-- The text after a word, if the word starts it. -/
def afterWord? (word : List Char) (cs : List Char) : Option (List Char) :=
  if word.isPrefixOf cs then some (cs.drop word.length) else none

mutual

/-- The value at the start of a text, which has no blank there. -/
def valueAt : Nat → Nat → List Char → Option (Json × List Char)
  | 0, _, _ => none
  | fuel + 1, depth, cs =>
    match cs with
    | [] => none
    | '"' :: rest => (stringRest [] rest).map fun (s, rest) => (.string s, rest)
    | '[' :: rest =>
      match depth with
      | 0 => none
      | depth + 1 =>
        match dropGap rest with
        | ']' :: rest => some (.array [], rest)
        | rest => itemsAt fuel depth [] rest
    | '\x7b' :: rest =>
      match depth with
      | 0 => none
      | depth + 1 =>
        match dropGap rest with
        | '\x7d' :: rest => some (.object [], rest)
        | rest => membersAt fuel depth [] rest
    | 'n' :: rest => (afterWord? ['u', 'l', 'l'] rest).map fun rest => (.null, rest)
    | 't' :: rest => (afterWord? ['r', 'u', 'e'] rest).map fun rest => (.bool true, rest)
    | 'f' :: rest => (afterWord? ['a', 'l', 's', 'e'] rest).map fun rest => (.bool false, rest)
    | cs => numberAt cs

/-- The items of an array up to its end; `held` are those read so far, from the last. -/
def itemsAt : Nat → Nat → List Json → List Char → Option (Json × List Char)
  | 0, _, _, _ => none
  | fuel + 1, depth, held, cs =>
    match valueAt fuel depth cs with
    | none => none
    | some (v, rest) =>
      match dropGap rest with
      | ',' :: rest => itemsAt fuel depth (v :: held) (dropGap rest)
      | ']' :: rest => some (.array (v :: held).reverse, rest)
      | _ => none

/-- The members of an object up to its end. -/
def membersAt : Nat → Nat → List (String × Json) → List Char → Option (Json × List Char)
  | 0, _, _, _ => none
  | fuel + 1, depth, held, cs =>
    match cs with
    | '"' :: rest =>
      match stringRest [] rest with
      | none => none
      | some (name, rest) =>
        match dropGap rest with
        | ':' :: rest =>
          match valueAt fuel depth (dropGap rest) with
          | none => none
          | some (v, rest) =>
            match dropGap rest with
            | ',' :: rest => membersAt fuel depth (setMember name v held) (dropGap rest)
            | '\x7d' :: rest => some (.object (setMember name v held), rest)
            | _ => none
        | _ => none
    | _ => none

end

/-- Read a text that holds one value and blanks around it. -/
def parse? (text : String) : Option Json :=
  let cs := dropGap text.toList
  match valueAt (2 * cs.length + 2) maxDepth cs with
  | some (v, rest) => if (dropGap rest).isEmpty then some v else none
  | none => none

end AsmIndex.Json

import AsmIndex.Diagnostic
import AsmIndex.Text

/-!
Tokens of assembler code. Each token is the longest text of its kind at its place; ASCII blanks
stand between tokens, and the colon after a label belongs to no token. Lines and columns are exact
for texts with fewer than 2^32 lines and bytes, as those of diagnostics are.
-/

namespace AsmIndex.Source

/-- The kinds of tokens. -/
inductive TokenKind
  | directive
  | pseudoOp
  | label
  | identifier
  | number
  | literal
  | punctuation
deriving DecidableEq, Repr

/-- A token at a line and a byte column. -/
structure Token where
  kind : TokenKind
  text : String
  line : Nat
  column : Nat
deriving DecidableEq, Repr

/-- A hexadecimal digit. -/
def isHexDigit (c : Char) : Bool :=
  c.isDigit || ('a' ≤ c && c ≤ 'f') || ('A' ≤ c && c ≤ 'F')

/-- A binary digit. -/
def isBinaryDigit (c : Char) : Bool := c == '0' || c == '1'

/-- A token at the start of a text: its kind, its number of characters, and whether a colon that
belongs to no token follows it. A literal may lack its closing quote. -/
structure Munch where
  kind : TokenKind
  length : Nat
  colon : Bool := false
  closed : Bool := true
deriving DecidableEq, Repr

/-- The token at the start of `c :: rest`, where `c` is not blank. -/
def Munch.at (c : Char) (rest : List Char) : Munch :=
  if c = '"' then
    let body := rest.takeWhile (· != '"')
    if body.length < rest.length then ⟨.literal, body.length + 2, false, true⟩
    else ⟨.literal, body.length + 1, false, false⟩
  else if c = '$' ∧ rest.head?.any isHexDigit then
    { kind := .number, length := (rest.takeWhile isHexDigit).length + 1 }
  else if c = '%' ∧ rest.head?.any isBinaryDigit then
    { kind := .number, length := (rest.takeWhile isBinaryDigit).length + 1 }
  else if c.isDigit then
    { kind := .number, length := (rest.takeWhile fun d => d.isDigit || d == '.').length + 1 }
  else if c = '.' ∧ rest.head?.any Char.isAlpha then
    { kind := .pseudoOp, length := (rest.takeWhile Text.isIdentPart).length + 1 }
  else if Text.isIdentStart c then
    let tail := rest.takeWhile Text.isIdentPart
    if (rest.drop tail.length).head? = some ':' then
      { kind := .label, length := tail.length + 1, colon := true }
    else { kind := .identifier, length := tail.length + 1 }
  else { kind := .punctuation, length := 1 }

/-- The tokens and diagnostics of the code `cs`, which starts at `column` of a line, after its first
`skip` characters, which belong to a token already taken. -/
def codeFrom (line skip column : Nat) : List Char → List Token × List Diagnostic
  | [] => ([], [])
  | c :: rest =>
    match skip with
    | skip + 1 => codeFrom line skip (column + c.utf8Size) rest
    | 0 =>
      if Text.isBlank c then codeFrom line 0 (column + c.utf8Size) rest
      else
        let munch := Munch.at c rest
        let text := String.ofList ((c :: rest).take munch.length)
        let taken := if munch.colon then munch.length else munch.length - 1
        let (tokens, diagnostics) := codeFrom line taken (column + c.utf8Size) rest
        (⟨munch.kind, text, line, column⟩ :: tokens,
          if munch.closed then diagnostics
          else ⟨line, column, .error, .token, "unterminated string literal"⟩ :: diagnostics)

/-- The tokens and diagnostics of a line of code. -/
def code (line : Nat) (cs : List Char) : List Token × List Diagnostic := codeFrom line 0 0 cs

end AsmIndex.Source

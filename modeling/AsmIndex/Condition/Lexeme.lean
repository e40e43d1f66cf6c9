import AsmIndex.Text

/-!
The lexemes of a condition text. Names are taken as long as possible, the two-character operators
are taken before their parts, and a character that starts no lexeme stands for itself.
-/

namespace AsmIndex.Condition

/-- A lexeme of a condition text. -/
inductive Lexeme
  | name (text : List Char)
  | bang
  | opening
  | closing
  | both
  | either
  | equal
  | differ
  | stray (c : Char)
deriving DecidableEq, Repr

/-- The characters of a lexeme. -/
def Lexeme.text : Lexeme → List Char
  | name text => text
  | bang => ['!']
  | opening => ['(']
  | closing => [')']
  | both => ['&', '&']
  | either => ['|', '|']
  | equal => ['=', '=']
  | differ => ['!', '=']
  | stray c => [c]

/-- The lexeme at the start of the text `c :: rest`. -/
def Lexeme.at (c : Char) (rest : List Char) : Lexeme :=
  if Text.isIdentStart c then name (c :: rest.takeWhile Text.isIdentPart)
  else if c = '(' then opening
  else if c = ')' then closing
  else if c = '!' then if rest.head? = some '=' then differ else bang
  else if c = '&' ∧ rest.head? = some '&' then both
  else if c = '|' ∧ rest.head? = some '|' then either
  else if c = '=' ∧ rest.head? = some '=' then equal
  else stray c

/-- A lexeme with the offset of its first byte. -/
structure Placed where
  offset : Nat
  lexeme : Lexeme
deriving DecidableEq, Repr

/-- The lexemes of a text that starts at `offset`, after its first `skip` characters, which belong
to a lexeme already taken. -/
def lexemesFrom (skip offset : Nat) : List Char → List Placed
  | [] => []
  | c :: rest =>
    match skip with
    | skip + 1 => lexemesFrom skip (offset + c.utf8Size) rest
    | 0 =>
      if Text.isBlank c then lexemesFrom 0 (offset + c.utf8Size) rest
      else
        let lexeme := Lexeme.at c rest
        ⟨offset, lexeme⟩ :: lexemesFrom (lexeme.text.length - 1) (offset + c.utf8Size) rest

/-- The lexemes of a condition text. -/
def lexemes (cs : List Char) : List Placed := lexemesFrom 0 0 cs

end AsmIndex.Condition

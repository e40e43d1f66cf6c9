import AsmIndex.Text
import AsmIndex.Text.Word

/-!
Directive lines and their arguments: `#` and a keyword after nothing but white space, then the
argument. Two older spellings of imports stand among the code.
-/

namespace AsmIndex.Source

/-- The keywords of directives. -/
inductive Keyword
  | define
  | undef
  | ifHolds
  | elseIf
  | otherwise
  | endIf
  | importIf
  | importOnce
  | importFile
deriving DecidableEq, Repr

/-- A keyword as it is written. -/
def Keyword.name : Keyword → String
  | define => "define"
  | undef => "undef"
  | ifHolds => "if"
  | elseIf => "elif"
  | otherwise => "else"
  | endIf => "endif"
  | importIf => "importif"
  | importOnce => "importonce"
  | importFile => "import"

/-- The keyword that a word is. -/
def Keyword.ofName? : String → Option Keyword
  | "define" => some define
  | "undef" => some undef
  | "if" => some ifHolds
  | "elif" => some elseIf
  | "else" => some otherwise
  | "endif" => some endIf
  | "importif" => some importIf
  | "importonce" => some importOnce
  | "import" => some importFile
  | _ => none

/-- A directive line: the byte column of its `#`, its keyword, and its argument with the byte column
where that starts. -/
structure Directive where
  column : Nat
  keyword : Keyword
  argumentColumn : Nat
  argument : List Char
deriving DecidableEq, Repr

/-- The directive on a line. The keyword is a whole word. -/
def Directive.ofLine? (line : List Char) : Option Directive :=
  let indent := line.takeWhile Text.isWhiteSpace
  match line.dropWhile Text.isWhiteSpace with
  | '#' :: rest =>
    let word := rest.takeWhile Text.isWord
    (Keyword.ofName? (String.ofList word)).map fun keyword =>
      { column := Text.width indent
        keyword
        argumentColumn := Text.width indent + 1 + Text.width word
        argument := rest.dropWhile Text.isWord }
  | _ => none

/-- A piece of an argument and the byte offset where it starts. -/
structure Piece where
  offset : Nat
  text : List Char
deriving DecidableEq, Repr

/-- An argument that is a symbol name. -/
def symbolArgument? (cs : List Char) : Option String :=
  match cs.dropWhile Text.isWhiteSpace with
  | [] => none
  | c :: rest =>
    if Text.isIdentStart c && (rest.dropWhile Text.isIdentPart).all Text.isWhiteSpace then
      some (String.ofList (c :: rest.takeWhile Text.isIdentPart))
    else none

/-- The text between a quote at the start of `cs` and the next one, and what follows. The quote
stands at `offset`. -/
def quotedAt? (offset : Nat) : List Char → Option (Piece × List Char)
  | '"' :: rest =>
    match rest.dropWhile (· != '"') with
    | _ :: after => some (⟨offset + 1, rest.takeWhile (· != '"')⟩, after)
    | [] => none
  | _ => none

/-- An argument that is a quoted file name. -/
def fileArgument? (cs : List Char) : Option Piece :=
  match quotedAt? (Text.width (cs.takeWhile Text.isWhiteSpace))
    (cs.dropWhile Text.isWhiteSpace) with
  | some (piece, after) => if after.all Text.isWhiteSpace then some piece else none
  | none => none

/-- The condition in the text before a file name: the text without the white space around it, or its
last character where it is all white space. -/
def guardPiece (cs : List Char) : Piece :=
  if cs.all Text.isWhiteSpace then ⟨Text.width cs.dropLast, cs.drop (cs.length - 1)⟩
  else ⟨Text.width (cs.takeWhile Text.isWhiteSpace), Text.trim cs⟩

/-- An argument that is a condition and a quoted file name. The last two quotes delimit the file
name, and only white space follows it. -/
def guardedArgument? (cs : List Char) : Option (Piece × Piece) :=
  match cs.reverse.dropWhile Text.isWhiteSpace with
  | '"' :: rest =>
    let name := (rest.takeWhile (· != '"')).reverse
    match rest.dropWhile (· != '"') with
    | _ :: c :: before =>
      let guard := (c :: before).reverse
      some (guardPiece guard, ⟨Text.width guard + 1, name⟩)
    | _ => none
  | _ => none

/-- The text after a word that starts it. -/
def after? (word : String) (cs : List Char) : Option (List Char) :=
  if word.toList.isPrefixOf cs then some (cs.drop word.length) else none

/-- The text after white space that starts it; there is some. -/
def afterSpace? (cs : List Char) : Option (List Char) :=
  if cs.head?.any Text.isWhiteSpace then some (cs.dropWhile Text.isWhiteSpace) else none

/-- The file name that a line of code imports with `.import source`. -/
def sourceImport? (line : List Char) : Option Piece := do
  let rest ← after? ".import" (line.dropWhile Text.isWhiteSpace)
  let rest ← afterSpace? rest
  let rest ← after? "source" rest
  let rest ← afterSpace? rest
  let (piece, _) ← quotedAt? (Text.width line - Text.width rest) rest
  return piece

/-- Whether a line of code starts with the word `.importonce`. -/
def isOnceMark (line : List Char) : Bool :=
  match after? ".importonce" (line.dropWhile Text.isWhiteSpace) with
  | some rest => !rest.head?.any Text.isWord
  | none => false

end AsmIndex.Source

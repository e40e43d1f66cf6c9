/-!
Comments. `//` runs to the end of its line and `/*` to the next `*/`, on whatever line that is;
neither starts a comment inside a string literal, which ends at its next quote or with the line.
Masking puts as many spaces in place of a comment as the comment has bytes, so that offsets stay
as they are.
-/

namespace AsmIndex.Source

/-- What the text is part of, while a line is read from the left. -/
inductive Passage
  | code
  | literal
  | comment
deriving DecidableEq, Repr

/-- As many spaces as a character has bytes. -/
def blanks (c : Char) : List Char := List.replicate c.utf8Size ' '

/-- A line with spaces for its comments, and whether it ends inside a comment. -/
def maskFrom : Passage → List Char → List Char × Bool
  | kind, [] => ([], kind == .comment)
  | .comment, '*' :: '/' :: rest =>
    let (masked, open?) := maskFrom .code rest
    (' ' :: ' ' :: masked, open?)
  | .comment, c :: rest =>
    let (masked, open?) := maskFrom .comment rest
    (blanks c ++ masked, open?)
  | .literal, c :: rest =>
    let (masked, open?) := maskFrom (if c = '"' then .code else .literal) rest
    (c :: masked, open?)
  | .code, '/' :: '/' :: rest => (' ' :: ' ' :: rest.flatMap blanks, false)
  | .code, '/' :: '*' :: rest =>
    let (masked, open?) := maskFrom .comment rest
    (' ' :: ' ' :: masked, open?)
  | .code, c :: rest =>
    let (masked, open?) := maskFrom (if c = '"' then .literal else .code) rest
    (c :: masked, open?)

/-- A line with spaces for its comments; `inComment` tells whether it starts inside one. The second
part tells whether it ends inside one. -/
def mask (inComment : Bool) (line : List Char) : List Char × Bool :=
  maskFrom (if inComment then .comment else .code) line

end AsmIndex.Source

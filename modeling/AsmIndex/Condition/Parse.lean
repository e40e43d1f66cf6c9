import AsmIndex.Condition
import AsmIndex.Condition.Lexeme

/-!
Reading conditions. From the weakest to the strongest the operators are `||`, `&&`, then `==` and
`!=`, then `!`; operators of one strength group to the left. The reader takes one lexeme at a time
and keeps a stack of what is still open: negations, parentheses, and operators whose right side is
being read.
-/

namespace AsmIndex.Condition

/-- Why a text is no condition. Offsets count bytes. -/
inductive ParseError
  | empty
  | unexpectedChar (found : Char) (offset : Nat)
  | unexpectedEnd (offset : Nat)
  | unclosedGroup (offset : Nat)
  | trailingInput (offset : Nat)
deriving DecidableEq, Repr

/-- The wording of an error. -/
def ParseError.message : ParseError → String
  | empty => "empty condition"
  | unexpectedChar found offset => s!"unexpected character '{found}' at offset {offset}"
  | unexpectedEnd offset => s!"unexpected end of condition at offset {offset}"
  | unclosedGroup offset => s!"missing ')' for '(' at offset {offset}"
  | trailingInput offset => s!"unexpected trailing input at offset {offset}"

/-- The operators with two sides. -/
inductive Operator
  | either
  | both
  | equal
  | differ
deriving DecidableEq, Repr

namespace Operator

/-- How strongly an operator binds. -/
def strength : Operator → Nat
  | either => 1
  | both => 2
  | equal => 3
  | differ => 3

/-- The condition that an operator makes of its sides. -/
def apply : Operator → Condition → Condition → Condition
  | either => Condition.either
  | both => Condition.both
  | equal => Condition.equal
  | differ => Condition.differ

/-- The operator that a lexeme stands for. -/
def ofLexeme? : Lexeme → Option Operator
  | .either => some either
  | .both => some both
  | .equal => some equal
  | .differ => some differ
  | _ => none

end Operator

/-- Something open: a negation, a parenthesis, or an operator with its left side. -/
inductive Pending
  | negation
  | group (offset : Nat)
  | operator (op : Operator) (left : Condition)
deriving DecidableEq, Repr

/-- Apply the negations on top of the stack. -/
def negate : List Pending → Condition → List Pending × Condition
  | .negation :: stack, c => negate stack (.negation c)
  | stack, c => (stack, c)

/-- Apply the operators on top of the stack that bind at least as strongly as `strength`. -/
def combine (strength : Nat) : List Pending → Condition → List Pending × Condition
  | .operator op left :: stack, c =>
    if strength ≤ op.strength then combine strength stack (op.apply left c)
    else (.operator op left :: stack, c)
  | stack, c => (stack, c)

/-- The offset of the innermost open parenthesis. -/
def openGroup? : List Pending → Option Nat
  | [] => none
  | .group offset :: _ => some offset
  | _ :: stack => openGroup? stack

/-- The reader between two lexemes: it wants an operand, or it has read one. -/
inductive Reading
  | operand (stack : List Pending)
  | value (stack : List Pending) (c : Condition)
deriving DecidableEq, Repr

/-- The error for a lexeme, or the end, that cannot follow an operand. -/
def ParseError.after (stack : List Pending) (offset : Nat) : ParseError :=
  match openGroup? stack with
  | some opening => unclosedGroup opening
  | none => trailingInput offset

/-- Read a lexeme where an operand is wanted. -/
def readOperand (stack : List Pending) (p : Placed) : Except ParseError Reading :=
  match p.lexeme with
  | .name text =>
    let (stack, c) := negate stack (.symbol (String.ofList text))
    .ok (.value stack c)
  | .bang => .ok (.operand (.negation :: stack))
  | .opening => .ok (.operand (.group p.offset :: stack))
  | other => .error (.unexpectedChar (other.text.headD ' ') p.offset)

/-- Read a lexeme after an operand. -/
def readOperator (stack : List Pending) (c : Condition) (p : Placed) :
    Except ParseError Reading :=
  match Operator.ofLexeme? p.lexeme with
  | some op =>
    let (stack, left) := combine op.strength stack c
    .ok (.operand (.operator op left :: stack))
  | none =>
    match p.lexeme, combine 0 stack c with
    | .closing, (.group _ :: outer, inner) =>
      let (stack, c) := negate outer inner
      .ok (.value stack c)
    | _, _ => .error (.after stack p.offset)

/-- Read one lexeme. -/
def Reading.step (r : Reading) (p : Placed) : Except ParseError Reading :=
  match r with
  | operand stack => readOperand stack p
  | value stack c => readOperator stack c p

/-- Read lexemes from the first to the last. -/
def Reading.run (r : Reading) : List Placed → Except ParseError Reading
  | [] => .ok r
  | p :: rest =>
    match r.step p with
    | .ok r => r.run rest
    | .error e => .error e

/-- The condition that has been read when the text ends at `offset`. -/
def Reading.finish (offset : Nat) : Reading → Except ParseError Condition
  | operand _ => .error (.unexpectedEnd offset)
  | value stack c =>
    match openGroup? stack with
    | some opening => .error (.unclosedGroup opening)
    | none => .ok (combine 0 stack c).2

/-- Read a condition. -/
def parse (cs : List Char) : Except ParseError Condition :=
  match lexemes cs with
  | [] => .error .empty
  | p :: rest =>
    match (Reading.operand []).run (p :: rest) with
    | .ok r => r.finish (Text.width cs)
    | .error e => .error e

/-- The truth value of a condition text where the symbols of `s` are defined. -/
def evaluate (cs : List Char) (s : Symbols) : Except ParseError Bool :=
  match parse cs with
  | .ok c => .ok (c.holds s)
  | .error e => .error e

end AsmIndex.Condition

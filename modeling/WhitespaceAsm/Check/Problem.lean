import WhitespaceAsm.Position
import WhitespaceAsm.Tree.Dump

/-!
# Problems in a tree

Every token and instruction of a tree in which something is wrong gets a message, with the offset of
the token in the program.

* `Problem`, `Problem.render`;
* **`Node.problems`**: the problems of a tree in the order in which they are met.
-/

namespace WhitespaceAsm

/-- **Something wrong at a place of the program.** -/
structure Problem where
  offset : Nat
  message : Bytes
deriving DecidableEq, Repr

/-- A problem with the line and the column of its place, in bytes. -/
def Problem.render (src : Bytes) (p : Problem) : Bytes :=
  let pos := Pos.advance .byte {} (src.take p.offset)
  decimal pos.line ++ ascii ":" ++ decimal pos.column ++ ascii ": " ++ p.message

/-- The text of a token in single quotes. -/
def Token.quoteName (t : Token) : Bytes :=
  [Ascii.singleQuote] ++ escapeText t.text ++ [Ascii.singleQuote]

/-- The problem of a token, if it has an error. -/
def Token.problems (offset : Nat) (t : Token) : List Problem :=
  if t.hasError then [⟨offset, t.describe⟩] else []

def tokensProblems (offset : Nat) : List Token → List Problem
  | [] => []
  | t :: ts => t.problems offset ++ tokensProblems (offset + t.text.length) ts

namespace Inst

/-- The problem of a head: it names no instruction, or has an error of its own. -/
def headProblems (offset : Nat) (i : Inst) : List Problem :=
  if i.opcode = .invalid then [⟨offset, ascii "unknown instruction " ++ i.head.quoteName⟩]
  else i.head.problems offset

/-- The problem of the arguments as a whole. -/
def fitProblems (offset : Nat) (i : Inst) : List Problem :=
  if !i.validArity then [⟨offset, ascii "wrong number of arguments for " ++ i.head.quoteName⟩]
  else if !i.validTypes then [⟨offset, ascii "argument types do not match " ++ i.head.quoteName⟩]
  else []

/-- **The problems of an instruction**: those of its tokens in order, and then that of its arguments
as a whole, which is one of the head. -/
def problems (offset : Nat) (i : Inst) : List Problem :=
  let head := offset + (texts i.before).length
  let others := i.args.flatMap Arg.tokens ++ i.after
  tokensProblems offset i.before ++ i.headProblems head
    ++ tokensProblems (head + i.head.text.length) others ++ i.fitProblems head

end Inst

def Statement.problems (offset : Nat) : Statement → List Problem
  | .inst i => i.problems offset
  | .emptyLine tokens => tokensProblems offset tokens

/-- The length of the text of some statements. -/
def statementsLength (ss : List Statement) : Nat := (texts (ss.flatMap Statement.tokens)).length

namespace Node

def length (n : Node) : Nat := n.source.length

mutual

/-- **The problems of a tree** that starts at an offset. That of an option block comes after those
inside it. -/
def problems (offset : Nat) : Node → List Problem
  | statement s => s.problems offset
  | block nodes => problemsList offset nodes
  | optionBlock ⟨branches, close⟩ =>
    let closeOffset := offset + statementsLength (statementsBranches branches)
    problemsBranches offset branches
      ++ (match close with
        | some i => i.problems closeOffset
        | none => [])
      ++ (if OptionBlock.malformed ⟨branches, close⟩ then
          [⟨offset, ascii "malformed option block"⟩]
        else [])
  | dialect _ inner => problemsOption offset inner

def problemsList (offset : Nat) : List Node → List Problem
  | [] => []
  | n :: ns => n.problems offset ++ problemsList (offset + n.length) ns

def problemsBranches (offset : Nat) : List (Branch Node) → List Problem
  | [] => []
  | ⟨condition, body⟩ :: bs =>
    let bodyOffset := offset + (texts condition.tokens).length
    let nextOffset := bodyOffset + statementsLength (statementsList body)
    condition.problems offset ++ problemsList bodyOffset body ++ problemsBranches nextOffset bs

def problemsOption (offset : Nat) : Option Node → List Problem
  | none => []
  | some n => n.problems offset

end

end Node

end WhitespaceAsm

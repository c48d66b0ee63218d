import WhitespaceAsm.Dialect
import WhitespaceAsm.Token.Basic

/-!
# Syntax trees

A tree keeps every token that has been read, so that its tokens in order are the program. Problems
are flags on tokens and instructions.

* `Inst`: an instruction with the tokens around it; `Statement`: an instruction or an empty line;
* `Branch`, `OptionBlock`: blocks of the preprocessor; **`Node`**: trees;
* **`Node.statements`**: the statements of a tree in source order; `Node.tokens`, `Node.source`: its
  tokens and its text; `Node.walk`: the names of its instructions.
-/

namespace WhitespaceAsm

/-! ## Instructions -/

/-- **An argument** with the tokens between it and what comes before. -/
structure Arg where
  sep : List Token := []
  token : Token
deriving DecidableEq, Repr

def Arg.tokens (a : Arg) : List Token := a.sep ++ [a.token]

/-- **An instruction** with the tokens around it. -/
structure Inst where
  /-- The tokens before the head. -/
  before : List Token := []
  /-- The mnemonic, or the label that is defined. -/
  head : Token
  args : List Arg := []
  /-- Spaces, a comment and what ends the instruction. -/
  after : List Token := []
  /-- Some overload has as many arguments. -/
  validArity : Bool := true
  /-- The arguments are of the kinds that this overload expects. -/
  validTypes : Bool := true
deriving DecidableEq, Repr

namespace Inst

/-- The opcode that the head stands for: that of a mnemonic, `label` for a label, and none for
anything else. -/
def opcode (i : Inst) : Opcode :=
  match i.head.unwrap.payload? with
  | some (.mnemonic opcode) => opcode
  | some (.label _) => .label
  | _ => .invalid

/-- The tokens of an instruction in order. -/
def tokens (i : Inst) : List Token :=
  i.before ++ [i.head] ++ i.args.flatMap Arg.tokens ++ i.after

inductive QueryError
  /-- There is no argument at a place. -/
  | noArgument (place count : Nat)
  /-- No argument is a label. -/
  | noLabel (opcode : Opcode)
deriving DecidableEq, Repr

def QueryError.message : QueryError → Bytes
  | .noArgument place count =>
    ascii "argument " ++ decimal place ++ ascii " of " ++ decimal count
  | .noLabel opcode => ascii "no label argument for " ++ ascii opcode.name

/-- The argument at a place, without wrappers. -/
def arg (i : Inst) (place : Nat) : Except QueryError Token :=
  match i.args[place]? with
  | some a => .ok a.token.unwrap
  | none => .error (.noArgument place i.args.length)

/-- The label among the arguments. -/
def labelArg (i : Inst) : Except QueryError Label :=
  let labels := i.args.filterMap fun a =>
    match a.token.unwrap.payload? with
    | some (.label l) => some l
    | _ => none
  match labels.head? with
  | some l => .ok l
  | none => .error (.noLabel i.opcode)

/-- **Something is wrong with an instruction**: its head names none, its arguments do not fit, or a
token has an error. -/
def hasError (i : Inst) : Bool :=
  !i.validArity || !i.validTypes || i.opcode == .invalid || i.tokens.any Token.hasError

end Inst

/-- **A statement**: an instruction, or a line without one. -/
inductive Statement
  | inst (i : Inst)
  | emptyLine (tokens : List Token)
deriving DecidableEq, Repr

namespace Statement

def tokens : Statement → List Token
  | inst i => i.tokens
  | emptyLine tokens => tokens

def hasError : Statement → Bool
  | inst i => i.hasError
  | emptyLine tokens => tokens.any Token.hasError

/-- The opcode of an instruction, or a dash. -/
def summaryName : Statement → String
  | inst i => i.opcode.name
  | emptyLine _ => "-"

end Statement

/-! ## Trees -/

/-- **A branch of an option block**: its condition and the trees that it guards. -/
structure Branch (α : Type) where
  condition : Inst
  body : List α := []
deriving DecidableEq, Repr

/-- **A block that is compiled under a condition.** In a complete one the first branch begins with
`ifoption` and there is an end. -/
structure OptionBlock (α : Type) where
  branches : List (Branch α) := []
  close : Option Inst := none
deriving DecidableEq, Repr

/-- The block has no end, or its first branch does not begin with `ifoption`. -/
def OptionBlock.malformed {α : Type} (b : OptionBlock α) : Bool :=
  b.close.isNone || b.branches.head?.all fun first => first.condition.opcode != .ifOption

/-- **A syntax tree.** -/
inductive Node
  | statement (s : Statement)
  | block (nodes : List Node)
  | optionBlock (b : OptionBlock Node)
  | dialect (d : Dialect) (inner : Option Node)
deriving Repr

namespace Node

instance : Inhabited Node := ⟨.block []⟩

/-! ### Equality -/

mutual

def decEq : (a b : Node) → Decidable (a = b)
  | statement s, statement s' => decidable_of_iff (s = s') (by simp)
  | block ns, block ns' =>
    match decEqList ns ns' with
    | .isTrue h => .isTrue (by simp [h])
    | .isFalse h => .isFalse (by simp [h])
  | optionBlock ⟨bs, c⟩, optionBlock ⟨bs', c'⟩ =>
    match decEqBranches bs bs' with
    | .isTrue h => decidable_of_iff (c = c') (by simp [h])
    | .isFalse h => .isFalse (by simp [h])
  | dialect d n, dialect d' n' =>
    match decEqOption n n' with
    | .isTrue h => decidable_of_iff (d = d') (by simp [h])
    | .isFalse h => .isFalse (by simp [h])
  | statement .., block .. | statement .., optionBlock .. | statement .., dialect ..
  | block .., statement .. | block .., optionBlock .. | block .., dialect ..
  | optionBlock .., statement .. | optionBlock .., block .. | optionBlock .., dialect ..
  | dialect .., statement .. | dialect .., block .. | dialect .., optionBlock .. =>
    .isFalse (by simp)

def decEqList : (a b : List Node) → Decidable (a = b)
  | [], [] => .isTrue rfl
  | a :: as, b :: bs =>
    match decEq a b, decEqList as bs with
    | .isTrue h, .isTrue h' => .isTrue (by simp [h, h'])
    | .isFalse h, _ => .isFalse (by simp [h])
    | _, .isFalse h => .isFalse (by simp [h])
  | [], _ :: _ | _ :: _, [] => .isFalse (by simp)

def decEqBranches : (a b : List (Branch Node)) → Decidable (a = b)
  | [], [] => .isTrue rfl
  | ⟨c, ns⟩ :: as, ⟨c', ns'⟩ :: bs =>
    match decEqList ns ns', decEqBranches as bs with
    | .isTrue h, .isTrue h' => decidable_of_iff (c = c') (by simp [h, h'])
    | .isFalse h, _ => .isFalse (by simp [h])
    | _, .isFalse h => .isFalse (by simp [h])
  | [], _ :: _ | _ :: _, [] => .isFalse (by simp)

def decEqOption : (a b : Option Node) → Decidable (a = b)
  | none, none => .isTrue rfl
  | some a, some b =>
    match decEq a b with
    | .isTrue h => .isTrue (by simp [h])
    | .isFalse h => .isFalse (by simp [h])
  | none, some _ | some _, none => .isFalse (by simp)

end

instance : DecidableEq Node := decEq

/-! ### Reading a tree in source order -/

mutual

/-- **The statements of a tree** in source order. -/
def statements : Node → List Statement
  | statement s => [s]
  | block nodes => statementsList nodes
  | optionBlock ⟨branches, close⟩ =>
    statementsBranches branches ++ (close.map Statement.inst).toList
  | dialect _ inner => statementsOption inner

def statementsList : List Node → List Statement
  | [] => []
  | n :: ns => n.statements ++ statementsList ns

def statementsBranches : List (Branch Node) → List Statement
  | [] => []
  | ⟨condition, body⟩ :: bs =>
    .inst condition :: statementsList body ++ statementsBranches bs

def statementsOption : Option Node → List Statement
  | none => []
  | some n => n.statements

end

/-- The tokens of a tree in order. -/
def tokens (n : Node) : List Token := n.statements.flatMap Statement.tokens

/-- **The text of a tree.** -/
def source (n : Node) : Bytes := texts n.tokens

/-- The opcodes of the instructions of a tree, with a dash for each empty line. -/
def walk (n : Node) : List String := n.statements.map Statement.summaryName

/-! ### Errors -/

mutual

/-- **Something is wrong in a tree.** -/
def hasError : Node → Bool
  | statement s => s.hasError
  | block nodes => hasErrorList nodes
  | optionBlock ⟨branches, close⟩ =>
    OptionBlock.malformed ⟨branches, close⟩ || hasErrorBranches branches
      || close.any Inst.hasError
  | dialect _ inner => hasErrorOption inner

def hasErrorList : List Node → Bool
  | [] => false
  | n :: ns => n.hasError || hasErrorList ns

def hasErrorBranches : List (Branch Node) → Bool
  | [] => false
  | ⟨condition, body⟩ :: bs =>
    condition.hasError || hasErrorList body || hasErrorBranches bs

def hasErrorOption : Option Node → Bool
  | none => false
  | some n => n.hasError

end

end Node

/-- Something is wrong in an option block. -/
def OptionBlock.hasError (b : OptionBlock Node) : Bool := (Node.optionBlock b).hasError

end WhitespaceAsm

import WhitespaceAsm.Token.Describe
import WhitespaceAsm.Tree.Basic

/-!
# Listings and summaries of trees

* `Inst.dumpLines`, `Node.dumpLines`: the lines of the listing of a tree, indented by depth;
* **`Node.dump`**: the listing as text; `Node.summary`: a tree in a few words.
-/

namespace WhitespaceAsm

/-- A line of a listing at some depth, two spaces a level. -/
def indent (depth : Nat) (line : Bytes) : Bytes := List.replicate (2 * depth) Ascii.space ++ line

/-- A line for each of some tokens, under a label. -/
def dumpTokens (depth : Nat) (label : String) (ts : List Token) : List Bytes :=
  ts.map fun t => indent depth (ascii label ++ ascii " " ++ t.describe)

def Arg.dumpLines (depth : Nat) (a : Arg) : List Bytes :=
  dumpTokens depth "sep" a.sep ++ dumpTokens depth "arg" [a.token]

/-- The lines of an instruction. -/
def Inst.dumpLines (depth : Nat) (i : Inst) : List Bytes :=
  let flaw :=
    if !i.validArity then ascii " [bad arity]"
    else if !i.validTypes then ascii " [bad types]"
    else []
  indent depth (ascii "Inst " ++ ascii i.opcode.name ++ flaw)
    :: dumpTokens (depth + 1) "before" i.before
    ++ dumpTokens (depth + 1) "opcode" [i.head]
    ++ i.args.flatMap (Arg.dumpLines (depth + 1))
    ++ dumpTokens (depth + 1) "after" i.after

def Statement.dumpLines (depth : Nat) : Statement → List Bytes
  | .inst i => i.dumpLines depth
  | .emptyLine tokens =>
    indent depth (ascii "Empty") :: dumpTokens (depth + 1) "space" tokens

namespace Node

mutual

/-- **The lines of the listing of a tree.** -/
def dumpLines (depth : Nat) : Node → List Bytes
  | statement s => s.dumpLines depth
  | block nodes =>
    indent depth (ascii "Block (" ++ decimal nodes.length ++ ascii ")")
      :: dumpLinesList (depth + 1) nodes
  | optionBlock ⟨branches, close⟩ =>
    let flaw := if (optionBlock ⟨branches, close⟩).hasError then ascii " [malformed]" else []
    indent depth (ascii "OptionBlock" ++ flaw)
      :: dumpLinesBranches (depth + 1) branches
      ++ (match close with
        | some i => indent (depth + 1) (ascii "End") :: i.dumpLines (depth + 2)
        | none => [])
  | dialect d inner =>
    indent depth (ascii "Dialect " ++ ascii d.name) :: dumpLinesOption (depth + 1) inner

def dumpLinesList (depth : Nat) : List Node → List Bytes
  | [] => []
  | n :: ns => n.dumpLines depth ++ dumpLinesList depth ns

def dumpLinesBranches (depth : Nat) : List (Branch Node) → List Bytes
  | [] => []
  | ⟨condition, body⟩ :: bs =>
    indent depth (ascii "Branch") :: condition.dumpLines (depth + 1)
      ++ dumpLinesList (depth + 1) body ++ dumpLinesBranches depth bs

def dumpLinesOption (depth : Nat) : Option Node → List Bytes
  | none => []
  | some n => n.dumpLines depth

end

/-- **The listing of a tree**, each line ended by a line feed. -/
def dump (n : Node) : Bytes := (n.dumpLines 0).flatMap (· ++ [Ascii.lf])

end Node

/-- A statement in a few words: an instruction with its number of arguments, what is wrong with
them, and an exclamation mark for any error. -/
def Statement.summary : Statement → Bytes
  | .inst i =>
    ascii i.opcode.name ++ ascii " args=" ++ decimal i.args.length
      ++ (if !i.validArity then ascii " (bad arity)"
          else if !i.validTypes then ascii " (bad types)"
          else [])
      ++ (if i.hasError then ascii " !" else [])
  | .emptyLine _ => ascii "empty"

/-- **A tree in a few words.** -/
def Node.summary : Node → Bytes
  | .statement s => s.summary
  | .block nodes => ascii "block of " ++ decimal nodes.length
  | .optionBlock b => ascii "option block, " ++ decimal b.branches.length ++ ascii " branches"
  | .dialect d _ => ascii d.name

end WhitespaceAsm

import WhitespaceAsm.Tree.Basic

/-!
# Nesting of option directives

Statements come one by one and are put into blocks by the option directives among them: `ifoption`
opens a block, `elseifoption` and `elseoption` add a branch to the innermost open one, and
`endoption` closes it. A directive without an open block makes one of its own, and blocks that are
open at the end are closed without one, so that no statement is lost.

* **`OptionNester`**: the finished part and the open blocks; `OptionNester.push`,
  `OptionNester.finish`;
* `nestOptions`: a list of trees in blocks.
-/

namespace WhitespaceAsm.Burghard

/-- **The blocks on the way.** -/
structure OptionNester where
  /-- What is outside all blocks. -/
  root : List Node := []
  /-- The open blocks, innermost first. -/
  stack : List (OptionBlock Node) := []
deriving Repr, Inhabited

namespace OptionNester

/-- Adds a tree to the last of some branches. -/
def addToLast (node : Node) : List (Branch Node) → List (Branch Node)
  | [] => []
  | [branch] => [{ branch with body := branch.body ++ [node] }]
  | branch :: others => branch :: addToLast node others

/-- Adds a tree to the last branch of the innermost open block, or outside all blocks. -/
def add (n : OptionNester) (node : Node) : OptionNester :=
  match n.stack with
  | [] => { n with root := n.root ++ [node] }
  | block :: outer =>
    { n with stack := { block with branches := addToLast node block.branches } :: outer }

/-- Opens a block with a first branch. -/
def openBlock (n : OptionNester) (condition : Inst) : OptionNester :=
  { n with stack := { branches := [{ condition }] } :: n.stack }

/-- Adds a branch to the innermost open block, or opens one. -/
def addBranch (n : OptionNester) (condition : Inst) : OptionNester :=
  match n.stack with
  | [] => n.openBlock condition
  | block :: outer =>
    { n with stack := { block with branches := block.branches ++ [{ condition }] } :: outer }

/-- Closes the innermost open block, or makes one that has only an end. -/
def closeBlock (n : OptionNester) (close : Option Inst) : OptionNester :=
  match n.stack with
  | [] => n.add (.optionBlock { close })
  | block :: outer => { n with stack := outer }.add (.optionBlock { block with close })

/-- **Adds the next tree** in source order. -/
def push (n : OptionNester) (node : Node) : OptionNester :=
  match node with
  | .statement (.inst i) =>
    match i.opcode with
    | .ifOption => n.openBlock i
    | .elseIfOption | .elseOption => n.addBranch i
    | .endOption => n.closeBlock (some i)
    | _ => n.add node
  | _ => n.add node

/-- Closes the open blocks without an end, innermost first. -/
def closeAll (root : List Node) : List (OptionBlock Node) → List Node
  | [] => root
  | [block] => root ++ [.optionBlock block]
  | block :: outer :: others =>
    let branches := addToLast (.optionBlock block) outer.branches
    closeAll root ({ outer with branches } :: others)
termination_by stack => stack.length

/-- **The finished trees.** Nothing is left in the nester. -/
def finish (n : OptionNester) : List Node × OptionNester := (closeAll n.root n.stack, {})

end OptionNester

/-- **Trees in the blocks that the option directives among them make.** -/
def nestOptions (nodes : List Node) : List Node := (nodes.foldl OptionNester.push {}).finish.1

end WhitespaceAsm.Burghard

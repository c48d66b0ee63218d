import WhitespaceAsm.Tree.Basic

/-!
# Trees without their tokens

What a program means does not depend on its spaces and comments: an instruction is its opcode, the
two flags and what its arguments carry, and a tree is how instructions and empty lines are nested.

* `InstOutline`, `Inst.outline`: an instruction; **`Outline`**, `Statement.outline`,
  **`Node.outline`**: a tree.
-/

namespace WhitespaceAsm

/-- **What an instruction means**: all that is not how it is written. -/
structure InstOutline where
  opcode : Opcode
  validArity : Bool
  validTypes : Bool
  /-- What each argument carries, without wrappers. -/
  args : List (Option Payload)
deriving DecidableEq, Repr

def Inst.outline (i : Inst) : InstOutline where
  opcode := i.opcode
  validArity := i.validArity
  validTypes := i.validTypes
  args := i.args.map (·.token.unwrap.payload?)

theorem Inst.outline_congr {i i' : Inst} (hopcode : i.opcode = i'.opcode)
    (harity : i.validArity = i'.validArity) (htypes : i.validTypes = i'.validTypes)
    (hargs : i.args.map (·.token.unwrap.payload?) = i'.args.map (·.token.unwrap.payload?)) :
    i.outline = i'.outline := by
  rw [Inst.outline, Inst.outline, hopcode, harity, htypes, hargs]

/-- **A tree of instructions and empty lines.** A branch is its condition and its body. -/
inductive Outline
  | inst (i : InstOutline)
  | emptyLine
  | block (nodes : List Outline)
  | optionBlock (branches : List (InstOutline × List Outline)) (close : Option InstOutline)
  | dialect (d : Dialect) (inner : Option Outline)
deriving Repr

def Statement.outline : Statement → Outline
  | inst i => .inst i.outline
  | emptyLine _ => .emptyLine

namespace Node

mutual

/-- **A tree without its tokens.** -/
def outline : Node → Outline
  | statement s => s.outline
  | block nodes => .block (outlineList nodes)
  | optionBlock ⟨branches, close⟩ =>
    .optionBlock (outlineBranches branches) (close.map Inst.outline)
  | dialect d inner => .dialect d (outlineOption inner)

def outlineList : List Node → List Outline
  | [] => []
  | n :: ns => n.outline :: outlineList ns

def outlineBranches : List (Branch Node) → List (InstOutline × List Outline)
  | [] => []
  | ⟨condition, body⟩ :: bs => (condition.outline, outlineList body) :: outlineBranches bs

def outlineOption : Option Node → Option Outline
  | none => none
  | some n => some n.outline

end

theorem outlineList_eq_map (nodes : List Node) : outlineList nodes = nodes.map outline := by
  induction nodes with
  | nil => rw [outlineList, List.map_nil]
  | cons node nodes ih => rw [outlineList, ih, List.map_cons]

end Node

/-- A branch without its tokens. -/
def Branch.outline (b : Branch Node) : InstOutline × List Outline :=
  (b.condition.outline, b.body.map Node.outline)

namespace Node

theorem outlineBranches_eq_map (branches : List (Branch Node)) :
    outlineBranches branches = branches.map Branch.outline := by
  induction branches with
  | nil => rw [outlineBranches, List.map_nil]
  | cons branch branches ih =>
    rw [outlineBranches, ih, outlineList_eq_map, List.map_cons, Branch.outline]

theorem outline_statement (s : Statement) : (statement s).outline = s.outline := by
  rw [outline]

theorem outline_optionBlock (b : OptionBlock Node) : (optionBlock b).outline
    = .optionBlock (b.branches.map Branch.outline) (b.close.map Inst.outline) := by
  obtain ⟨branches, close⟩ := b
  rw [outline, outlineBranches_eq_map]

end Node

end WhitespaceAsm

import Mathlib.Logic.Function.Iterate
import WhitespaceAsm.Proofs.Burghard.OptionNester

/-!
# Trees in and out of blocks

A nester never comes to a block without a branch, neither while trees are pushed nor while the open
blocks are closed at the end. Trees whose directives are well nested come back from their
statements.

* **`nesting_keeps_statements`**: any number of runs of a nester, each with any trees;
* `OptionBlock.Complete`, **`Node.WellNested`**: trees in which each block has all its directives;
* **`nestOptions_statements`**: such trees come back from their statements.
-/

namespace WhitespaceAsm

theorem Node.statementsList_eq_flatMap (nodes : List Node) :
    Node.statementsList nodes = nodes.flatMap Node.statements := by
  induction nodes with
  | nil => simp [statementsList]
  | cons node nodes ih => rw [statementsList, ih, List.flatMap_cons]

namespace Burghard

namespace OptionNester

/-! ## Finishing block by block -/

/-- The innermost open block is closed without an end. A nester without an open block stays. -/
def closeInnermost (n : OptionNester) : OptionNester :=
  match n.stack with
  | [] => n
  | _ :: _ => n.closeBlock none

theorem length_stack_add (n : OptionNester) (node : Node) :
    (n.add node).stack.length = n.stack.length := by
  obtain ⟨root, stack⟩ := n
  cases stack with
  | nil => rfl
  | cons block outer => rfl

theorem length_stack_closeInnermost (n : OptionNester) :
    n.closeInnermost.stack.length = n.stack.length - 1 := by
  obtain ⟨root, stack⟩ := n
  cases stack with
  | nil => rfl
  | cons block outer =>
    have h := length_stack_add ⟨root, outer⟩ (.optionBlock { block with close := none })
    simpa [closeInnermost, closeBlock] using h

theorem Open.closeInnermost {n : OptionNester} (h : n.Open) : n.closeInnermost.Open := by
  obtain ⟨root, stack⟩ := n
  cases stack with
  | nil => exact h
  | cons block outer =>
    obtain ⟨-, houter⟩ := List.forall_mem_cons.1 h
    exact (add_spec (n := ⟨root, outer⟩) houter (.optionBlock { block with close := none })).2

/-- Closing the innermost block first does not change how a nester is finished. -/
theorem closeAll_closeInnermost {n : OptionNester} (h : n.Open) :
    closeAll n.closeInnermost.root n.closeInnermost.stack = closeAll n.root n.stack := by
  obtain ⟨root, stack⟩ := n
  cases stack with
  | nil => rfl
  | cons block outer =>
    obtain ⟨⟨-, hclose⟩, -⟩ := List.forall_mem_cons.1 h
    have hblock : { block with close := none } = block := by rw [← hclose]
    simp only [OptionNester.closeInnermost, closeBlock, hblock]
    cases outer with
    | nil => simp [add, closeAll]
    | cons parent others => simp [add, closeAll]

theorem iterate_closeInnermost_open {n : OptionNester} (h : n.Open) (k : Nat) :
    (closeInnermost^[k] n).Open := by
  induction k with
  | zero => exact h
  | succ k ih => rw [Function.iterate_succ_apply']; exact ih.closeInnermost

/-- **Finishing closes the open blocks one by one**, innermost first. -/
theorem iterate_closeInnermost {n : OptionNester} (h : n.Open) :
    closeInnermost^[n.stack.length] n = { root := n.finish.1 } := by
  -- each step takes a block from the stack and leaves the finished trees as they are
  have hsteps : ∀ k, (closeInnermost^[k] n).stack.length = n.stack.length - k ∧
      closeAll (closeInnermost^[k] n).root (closeInnermost^[k] n).stack = n.finish.1 := by
    intro k
    induction k with
    | zero => exact ⟨rfl, rfl⟩
    | succ k ih =>
      obtain ⟨hlength, hfinish⟩ := ih
      rw [Function.iterate_succ_apply', length_stack_closeInnermost,
        closeAll_closeInnermost (iterate_closeInnermost_open h k)]
      exact ⟨by omega, hfinish⟩
  obtain ⟨hlength, hfinish⟩ := hsteps n.stack.length
  generalize closeInnermost^[n.stack.length] n = last at hlength hfinish
  obtain ⟨root, stack⟩ := last
  obtain rfl : stack = [] := List.eq_nil_of_length_eq_zero (by simpa using hlength)
  rw [← hfinish, closeAll]

theorem open_empty : ({} : OptionNester).Open := by
  simp [Open]

end OptionNester

/-- **A nester loses nothing and keeps the order**, whatever it has been used for before: the
finished trees have the statements of the pushed ones, and the nester is left empty. -/
theorem nesting_keeps_statements (earlier nodes : List Node) :
    let start := (earlier.foldl OptionNester.push {}).finish.2
    let n := nodes.foldl OptionNester.push start
    (∀ k, ((nodes.take k).foldl OptionNester.push start).Open) ∧
      (∀ k, (OptionNester.closeInnermost^[k] n).Open) ∧
      OptionNester.closeInnermost^[n.stack.length] n = { root := n.finish.1 } ∧
      (Node.block n.finish.1).statements = nodes.flatMap Node.statements ∧
      n.finish.2 = {} ∧ n.finish.1 = nestOptions nodes := by
  intro start n
  have hstart : start = {} := rfl
  have hopen : n.Open := (OptionNester.foldl_push_spec OptionNester.open_empty nodes).2
  refine ⟨fun k => ?_, OptionNester.iterate_closeInnermost_open hopen,
    OptionNester.iterate_closeInnermost hopen, ?_, rfl, rfl⟩
  · rw [hstart]
    exact (OptionNester.foldl_push_spec OptionNester.open_empty (nodes.take k)).2
  · rw [Node.statements, ← Node.statementsList_eq_flatMap]
    exact statementsList_nestOptions nodes

end Burghard

/-! ## Well-nested trees -/

/-- **A block with all its directives**: an `ifoption`, further branches, and an end. -/
structure OptionBlock.Complete {α : Type} (b : OptionBlock α) : Prop where
  opening : ∃ first others, b.branches = first :: others ∧ first.condition.opcode = .ifOption ∧
    ∀ branch ∈ others, branch.condition.opcode = .elseIfOption ∨
      branch.condition.opcode = .elseOption
  closing : ∃ close, b.close = some close ∧ close.opcode = .endOption

/-- **A tree of empty lines, instructions and complete blocks.** None of the instructions is an
option directive. -/
inductive Node.WellNested : Node → Prop
  | emptyLine (ts : List Token) : WellNested (.statement (.emptyLine ts))
  | inst (i : Inst) (h : i.opcode.isOptionDirective = false) : WellNested (.statement (.inst i))
  | optionBlock (b : OptionBlock Node) (complete : b.Complete)
      (bodies : ∀ branch ∈ b.branches, ∀ node ∈ branch.body, WellNested node) :
      WellNested (.optionBlock b)

namespace Burghard

namespace OptionNester

theorem push_inst {i : Inst} (h : i.opcode.isOptionDirective = false) (n : OptionNester) :
    n.push (.statement (.inst i)) = n.add (.statement (.inst i)) := by
  unfold push
  dsimp only
  split
  · next hop => rw [hop] at h; cases h
  · next hop => rw [hop] at h; cases h
  · next hop => rw [hop] at h; cases h
  · next hop => rw [hop] at h; cases h
  · rfl

theorem addToLast_append_singleton (node : Node) (bs : List (Branch Node)) (b : Branch Node) :
    addToLast node (bs ++ [b]) = bs ++ [{ b with body := b.body ++ [node] }] := by
  induction bs with
  | nil => rfl
  | cons c bs ih =>
    rw [List.cons_append, addToLast, ih, List.cons_append]
    simp

theorem foldl_add (nodes : List Node) (root : List Node) (bs : List (Branch Node)) (b : Branch Node)
    (close : Option Inst) (outer : List (OptionBlock Node)) :
    nodes.foldl add ⟨root, ⟨bs ++ [b], close⟩ :: outer⟩
      = ⟨root, ⟨bs ++ [{ b with body := b.body ++ nodes }], close⟩ :: outer⟩ := by
  induction nodes generalizing b with
  | nil => simp
  | cons node nodes ih =>
    rw [List.foldl_cons, add]
    dsimp only
    rw [addToLast_append_singleton, ih, List.append_assoc, List.singleton_append]

theorem foldl_add_root (nodes root : List Node) :
    nodes.foldl add ⟨root, []⟩ = ⟨root ++ nodes, []⟩ := by
  induction nodes generalizing root with
  | nil => simp
  | cons node nodes ih => rw [List.foldl_cons, add, ih, List.append_assoc, List.singleton_append]

/-- Pushes the statements of a tree one by one. -/
def pushAll (n : OptionNester) (ss : List Statement) : OptionNester :=
  (ss.map Node.statement).foldl push n

theorem pushAll_append (n : OptionNester) (ss ss' : List Statement) :
    n.pushAll (ss ++ ss') = (n.pushAll ss).pushAll ss' := by
  simp [pushAll]

theorem pushAll_cons (n : OptionNester) (s : Statement) (ss : List Statement) :
    n.pushAll (s :: ss) = (n.push (.statement s)).pushAll ss := rfl

theorem pushAll_statementsList {nodes : List Node}
    (h : ∀ node ∈ nodes, ∀ n : OptionNester, n.pushAll node.statements = n.add node)
    (n : OptionNester) : n.pushAll (Node.statementsList nodes) = nodes.foldl add n := by
  induction nodes generalizing n with
  | nil => simp [Node.statementsList, pushAll]
  | cons node nodes ih =>
    obtain ⟨hnode, hnodes⟩ := List.forall_mem_cons.1 h
    rw [Node.statementsList, pushAll_append, hnode, ih hnodes, List.foldl_cons]

theorem pushAll_statementsBranches {others : List (Branch Node)}
    (hconditions : ∀ branch ∈ others, branch.condition.opcode = .elseIfOption ∨
      branch.condition.opcode = .elseOption)
    (hbodies : ∀ branch ∈ others, ∀ node ∈ branch.body, ∀ n : OptionNester,
      n.pushAll node.statements = n.add node)
    (root : List Node) (bs : List (Branch Node)) (close : Option Inst)
    (outer : List (OptionBlock Node)) :
    pushAll ⟨root, ⟨bs, close⟩ :: outer⟩ (Node.statementsBranches others)
      = ⟨root, ⟨bs ++ others, close⟩ :: outer⟩ := by
  induction others generalizing bs with
  | nil => simp [Node.statementsBranches, pushAll]
  | cons branch others ih =>
    obtain ⟨condition, body⟩ := branch
    obtain ⟨hcondition, hconditions⟩ := List.forall_mem_cons.1 hconditions
    obtain ⟨hbody, hbodies⟩ := List.forall_mem_cons.1 hbodies
    have hpush : push ⟨root, ⟨bs, close⟩ :: outer⟩ (.statement (.inst condition))
        = ⟨root, ⟨bs ++ [⟨condition, []⟩], close⟩ :: outer⟩ := by
      obtain hop | hop := hcondition
      · simp only [push, hop, addBranch]
      · simp only [push, hop, addBranch]
    rw [Node.statementsBranches, List.cons_append, pushAll_cons, hpush, pushAll_append,
      pushAll_statementsList hbody, foldl_add, ih hconditions hbodies, List.append_assoc]
    rfl

/-- **The statements of a well-nested tree add the tree**, whatever blocks are open around it. -/
theorem pushAll_statements {node : Node} (h : node.WellNested) (n : OptionNester) :
    n.pushAll node.statements = n.add node := by
  induction h generalizing n with
  | emptyLine ts => rfl
  | inst i hop => exact push_inst hop n
  | optionBlock b complete bodies ih =>
    obtain ⟨branches, end?⟩ := b
    obtain ⟨⟨first, others, hbranches, hfirst, hothers⟩, close, hend, hclose⟩ := complete
    dsimp only at hbranches hend
    subst hbranches hend
    obtain ⟨hbody, hbodies⟩ := List.forall_mem_cons.1 ih
    obtain ⟨condition, body⟩ := first
    have hopen : n.push (.statement (.inst condition))
        = ⟨n.root, ⟨[] ++ [⟨condition, []⟩], none⟩ :: n.stack⟩ := by
      simp only [push, hfirst, openBlock, List.nil_append]
    have hclosed : push ⟨n.root, ⟨⟨condition, body⟩ :: others, none⟩ :: n.stack⟩
        (.statement (.inst close)) = n.add (.optionBlock ⟨⟨condition, body⟩ :: others, close⟩) := by
      simp only [push, hclose, closeBlock]
    -- the first branch is opened and filled, the others follow, and the end closes the block
    rw [Node.statements, Node.statementsBranches, List.append_assoc, List.cons_append,
      pushAll_cons, hopen, pushAll_append, pushAll_append, pushAll_statementsList hbody, foldl_add,
      pushAll_statementsBranches hothers hbodies]
    exact hclosed

end OptionNester

/-- **Well-nested trees come back from their statements**, pushed one by one in source order. -/
theorem nestOptions_statements {nodes : List Node} (h : ∀ node ∈ nodes, node.WellNested) :
    nestOptions ((Node.block nodes).statements.map Node.statement) = nodes := by
  have hpush := OptionNester.pushAll_statementsList
    (fun node hnode => OptionNester.pushAll_statements (h node hnode)) {}
  rw [OptionNester.foldl_add_root, List.nil_append] at hpush
  rw [nestOptions, Node.statements]
  change (OptionNester.pushAll {} (Node.statementsList nodes)).finish.1 = nodes
  rw [hpush, OptionNester.finish, OptionNester.closeAll]

/-- A block with two branches in the first branch of another one, behind an empty line. -/
theorem nestOptions_statements_inner :
    let inst (opcode : Opcode) : Inst := { head := .plain [] (.mnemonic opcode) }
    let inner : Node := .optionBlock ⟨[⟨inst .ifOption, [.statement (.inst (inst .push))]⟩,
      ⟨inst .elseOption, []⟩], some (inst .endOption)⟩
    let outer : Node := .optionBlock ⟨[⟨inst .ifOption, [inner]⟩,
      ⟨inst .elseIfOption, [.statement (.emptyLine [])]⟩], some (inst .endOption)⟩
    (∀ node ∈ [.statement (.emptyLine []), outer], node.WellNested) ∧
      nestOptions ((Node.block [.statement (.emptyLine []), outer]).statements.map Node.statement)
        = [.statement (.emptyLine []), outer] := by
  intro inst inner outer
  have hinner : inner.WellNested := by
    refine .optionBlock _ ⟨⟨_, _, rfl, rfl, ?_⟩, _, rfl, rfl⟩ ?_
    · simp [inst, Inst.opcode, Token.unwrap, Token.payload?]
    · simpa using .inst (inst .push) rfl
  have houter : outer.WellNested := by
    refine .optionBlock _ ⟨⟨_, _, rfl, rfl, ?_⟩, _, rfl, rfl⟩ ?_
    · simp [inst, Inst.opcode, Token.unwrap, Token.payload?]
    · simpa using ⟨hinner, .emptyLine []⟩
  have h : ∀ node ∈ [.statement (.emptyLine []), outer], node.WellNested :=
    List.forall_mem_cons.2 ⟨.emptyLine [], List.forall_mem_singleton.2 houter⟩
  exact ⟨h, nestOptions_statements h⟩

end Burghard

end WhitespaceAsm

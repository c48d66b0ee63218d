import WhitespaceAsm.Burghard.OptionNester

/-!
# Nesting keeps every statement

The statements of a nester are those outside all blocks and then those of the open blocks, outermost
first. Every operation adds its statement behind them, so that blocks never change the source order.

* `OptionNester.statements`, **`OptionNester.push_spec`**: one tree; `OptionNester.foldl_push_spec`:
  any number of them;
* **`statementsList_nestOptions`**: the statements of the finished trees.
-/

namespace WhitespaceAsm

namespace Node

theorem statementsList_append (ns ms : List Node) :
    statementsList (ns ++ ms) = statementsList ns ++ statementsList ms := by
  induction ns with
  | nil => simp [statementsList]
  | cons n ns ih => rw [List.cons_append, statementsList, statementsList, ih, List.append_assoc]

theorem statementsList_singleton (n : Node) : statementsList [n] = n.statements := by
  rw [statementsList, statementsList, List.append_nil]

theorem statementsBranches_append (bs cs : List (Branch Node)) :
    statementsBranches (bs ++ cs) = statementsBranches bs ++ statementsBranches cs := by
  induction bs with
  | nil => simp [statementsBranches]
  | cons b bs ih =>
    rw [List.cons_append, statementsBranches, statementsBranches, ih, List.append_assoc]

theorem statementsBranches_singleton (condition : Inst) :
    statementsBranches [{ condition }] = [.inst condition] := by
  simp [statementsBranches, statementsList]

theorem statementsList_map_statement (ss : List Statement) :
    statementsList (ss.map statement) = ss := by
  induction ss with
  | nil => simp [statementsList]
  | cons s ss ih => rw [List.map_cons, statementsList, statements, ih, List.singleton_append]

end Node

namespace Burghard.OptionNester

open Node

/-- The statements of some open blocks, innermost first, in source order. -/
def stackStatements (stack : List (OptionBlock Node)) : List Statement :=
  stack.reverse.flatMap fun block => statementsBranches block.branches

/-- **The statements of a nester** in source order. -/
def statements (n : OptionNester) : List Statement :=
  statementsList n.root ++ stackStatements n.stack

/-- **The open blocks** have a branch, to which statements can be added, and no end yet. -/
def Open (n : OptionNester) : Prop := ∀ block ∈ n.stack, block.branches ≠ [] ∧ block.close = none

theorem stackStatements_cons (block : OptionBlock Node) (stack : List (OptionBlock Node)) :
    stackStatements (block :: stack)
      = stackStatements stack ++ statementsBranches block.branches := by
  simp [stackStatements]

/-! ## Adding trees -/

theorem statementsBranches_addToLast (node : Node) {branches : List (Branch Node)}
    (h : branches ≠ []) :
    statementsBranches (addToLast node branches)
      = statementsBranches branches ++ node.statements := by
  fun_induction addToLast node branches with
  | case1 => exact absurd rfl h
  | case2 branch =>
    simp [statementsBranches, statementsList_append, statementsList_singleton]
  | case3 branch others hothers ih =>
    have hne : others ≠ [] := fun hnil => hothers hnil
    rw [statementsBranches, statementsBranches, ih hne, List.append_assoc]

theorem addToLast_ne_nil (node : Node) {branches : List (Branch Node)} (h : branches ≠ []) :
    addToLast node branches ≠ [] := by
  fun_cases addToLast node branches with
  | case1 => exact absurd rfl h
  | case2 branch => exact List.cons_ne_nil _ _
  | case3 branch others hothers => exact List.cons_ne_nil _ _

variable {n : OptionNester} (h : n.Open)

include h

theorem add_spec (node : Node) :
    (n.add node).statements = n.statements ++ node.statements ∧ (n.add node).Open := by
  obtain ⟨root, stack⟩ := n
  cases stack with
  | nil =>
    refine ⟨?_, h⟩
    simp [add, statements, stackStatements, statementsList_append, statementsList_singleton]
  | cons block outer =>
    obtain ⟨⟨hne, hclose⟩, houter⟩ := List.forall_mem_cons.1 h
    refine ⟨?_, List.forall_mem_cons.2 ⟨⟨addToLast_ne_nil node hne, hclose⟩, houter⟩⟩
    simp only [add, statements, stackStatements_cons, statementsBranches_addToLast node hne,
      List.append_assoc]

theorem openBlock_spec (condition : Inst) :
    (n.openBlock condition).statements = n.statements ++ [.inst condition] ∧
      (n.openBlock condition).Open := by
  refine ⟨?_, List.forall_mem_cons.2 ⟨⟨List.cons_ne_nil _ _, rfl⟩, h⟩⟩
  simp only [openBlock, statements, stackStatements_cons, statementsBranches_singleton,
    List.append_assoc]

theorem addBranch_spec (condition : Inst) :
    (n.addBranch condition).statements = n.statements ++ [.inst condition] ∧
      (n.addBranch condition).Open := by
  obtain ⟨root, stack⟩ := n
  cases stack with
  | nil => exact openBlock_spec h condition
  | cons block outer =>
    obtain ⟨⟨-, hclose⟩, houter⟩ := List.forall_mem_cons.1 h
    refine ⟨?_, List.forall_mem_cons.2 ⟨⟨by simp, hclose⟩, houter⟩⟩
    simp only [addBranch, statements, stackStatements_cons, statementsBranches_append,
      statementsBranches_singleton, List.append_assoc]

theorem closeBlock_spec (close : Inst) :
    (n.closeBlock (some close)).statements = n.statements ++ [.inst close] ∧
      (n.closeBlock (some close)).Open := by
  obtain ⟨root, stack⟩ := n
  cases stack with
  | nil =>
    have hadd := add_spec h (.optionBlock { close := some close })
    simpa [closeBlock, Node.statements, statementsBranches] using hadd
  | cons block outer =>
    obtain ⟨-, houter⟩ := List.forall_mem_cons.1 h
    obtain ⟨hadd, hopen⟩ := add_spec (n := ⟨root, outer⟩) houter
      (.optionBlock { block with close := some close })
    refine ⟨?_, hopen⟩
    rw [closeBlock]
    dsimp only
    rw [hadd]
    simp [statements, stackStatements_cons, Node.statements]

/-- **Pushing a tree adds its statements behind all others.** -/
theorem push_spec (node : Node) :
    (n.push node).statements = n.statements ++ node.statements ∧ (n.push node).Open := by
  unfold push
  split
  · next i =>
    split
    · exact openBlock_spec h i
    · exact addBranch_spec h i
    · exact addBranch_spec h i
    · exact closeBlock_spec h i
    · exact add_spec h _
  · exact add_spec h node

theorem foldl_push_spec (nodes : List Node) :
    (nodes.foldl push n).statements = n.statements ++ statementsList nodes ∧
      (nodes.foldl push n).Open := by
  induction nodes generalizing n with
  | nil => exact ⟨by simp [statementsList], h⟩
  | cons node nodes ih =>
    obtain ⟨hpush, hopen⟩ := push_spec h node
    obtain ⟨hrest, hopen'⟩ := ih hopen
    refine ⟨?_, hopen'⟩
    rw [List.foldl_cons, hrest, hpush, statementsList, List.append_assoc]

/-! ## The finished trees -/

omit h in
theorem statementsList_closeAll (root : List Node) (stack : List (OptionBlock Node))
    (h : (OptionNester.mk root stack).Open) :
    statementsList (closeAll root stack) = statementsList root ++ stackStatements stack := by
  fun_induction closeAll root stack with
  | case1 => simp [stackStatements]
  | case2 block =>
    obtain ⟨branches, close⟩ := block
    obtain ⟨⟨-, hclose⟩, -⟩ := List.forall_mem_cons.1 h
    dsimp only at hclose
    subst hclose
    simp [statementsList_append, statementsList_singleton, Node.statements, stackStatements]
  | case3 block outer others branches ih =>
    obtain ⟨inner, close⟩ := block
    obtain ⟨⟨-, hclose⟩, houter⟩ := List.forall_mem_cons.1 h
    obtain ⟨⟨hne, hclose'⟩, hothers⟩ := List.forall_mem_cons.1 houter
    dsimp only at hclose
    subst hclose
    have hopen : (OptionNester.mk root ({ outer with branches } :: others)).Open :=
      List.forall_mem_cons.2 ⟨⟨addToLast_ne_nil _ hne, hclose'⟩, hothers⟩
    rw [ih hopen, stackStatements_cons, stackStatements_cons, stackStatements_cons]
    dsimp only [branches]
    rw [statementsBranches_addToLast _ hne, Node.statements]
    simp

end Burghard.OptionNester

/-- **Nesting keeps every statement** in source order. -/
theorem Burghard.statementsList_nestOptions (nodes : List Node) :
    Node.statementsList (nestOptions nodes) = Node.statementsList nodes := by
  have hopen : ({} : OptionNester).Open := by simp [OptionNester.Open]
  obtain ⟨hpush, hopen'⟩ := OptionNester.foldl_push_spec hopen nodes
  rw [nestOptions, OptionNester.finish, OptionNester.statementsList_closeAll _ _ hopen']
  exact hpush.trans (by simp [OptionNester.statements, OptionNester.stackStatements,
    Node.statementsList])

end WhitespaceAsm

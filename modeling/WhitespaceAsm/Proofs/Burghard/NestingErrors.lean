import Mathlib.Data.List.Basic
import Mathlib.Data.List.Induction
import WhitespaceAsm.Proofs.Burghard.Nesting

/-!
# Errors of nesting

Nothing is noted down when a directive comes at a wrong place. The block that it makes or stays in
has a flaw instead: no branch, a first branch that is not an `ifoption`, or no end. The flaw is seen
in the finished trees, however deep it stands there, and no later directive mends it.

* `Statement.opcode?`, `openBlocks`, **`Stray`**: directives, counted from left to right;
* `OptionNester.Faulty`: a nester in which an error shows; **`OptionNester.faulty_push`**,
  `OptionNester.length_stack_push`: one statement; **`OptionNester.foldl_push_faulty`**: any number;
* **`hasError_nestOptions`**: when the finished trees have an error.
-/

namespace WhitespaceAsm

/-- The opcode of an instruction. A line without one has none. -/
def Statement.opcode? : Statement → Option Opcode
  | inst i => some i.opcode
  | emptyLine _ => none

namespace Node

theorem hasErrorList_append (ns ms : List Node) :
    hasErrorList (ns ++ ms) = (hasErrorList ns || hasErrorList ms) := by
  induction ns with
  | nil => rw [List.nil_append, hasErrorList, Bool.false_or]
  | cons n ns ih => rw [List.cons_append, hasErrorList, hasErrorList, ih, Bool.or_assoc]

theorem hasErrorList_singleton (n : Node) : hasErrorList [n] = n.hasError := by
  rw [hasErrorList, hasErrorList, Bool.or_false]

theorem hasErrorBranches_append (bs cs : List (Branch Node)) :
    hasErrorBranches (bs ++ cs) = (hasErrorBranches bs || hasErrorBranches cs) := by
  induction bs with
  | nil => rw [List.nil_append, hasErrorBranches, Bool.false_or]
  | cons b bs ih =>
    rw [List.cons_append, hasErrorBranches, hasErrorBranches, ih]
    simp only [Bool.or_assoc]

theorem hasErrorBranches_singleton (condition : Inst) :
    hasErrorBranches [{ condition }] = condition.hasError := by
  simp [hasErrorBranches, hasErrorList]

end Node

namespace Burghard

/-! ## Directives, counted -/

/-- **The number of open blocks** behind some statements: an `ifoption` opens one, an `endoption`
closes one. -/
def openBlocks (ss : List Statement) : Int :=
  (ss.map Statement.opcode?).count (some .ifOption)
    - (ss.map Statement.opcode?).count (some .endOption)

/-- The statement is a directive that stands in a block. -/
def NeedsBlock (s : Statement) : Prop :=
  s.opcode? = some .elseIfOption ∨ s.opcode? = some .elseOption ∨ s.opcode? = some .endOption

/-- **A directive stands where no block is open.** -/
def Stray (ss : List Statement) : Prop :=
  ∃ before s after, ss = before ++ s :: after ∧ NeedsBlock s ∧ openBlocks before ≤ 0

theorem openBlocks_concat (ss : List Statement) (s : Statement) :
    openBlocks (ss ++ [s]) = openBlocks ss + openBlocks [s] := by
  simp only [openBlocks, List.map_append, List.count_append]
  omega

theorem openBlocks_singleton (s : Statement) : openBlocks [s]
    = (if s.opcode? = some .ifOption then 1 else 0)
      - (if s.opcode? = some .endOption then 1 else 0) := by
  simp only [openBlocks, List.map_singleton, List.count_singleton, beq_iff_eq]
  split_ifs <;> rfl

theorem stray_concat_iff {ss : List Statement} {s : Statement} :
    Stray (ss ++ [s]) ↔ Stray ss ∨ NeedsBlock s ∧ openBlocks ss ≤ 0 := by
  constructor
  · rintro ⟨before, s', after, hsplit, hneeds, hle⟩
    obtain rfl | ⟨after, last, rfl⟩ := List.eq_nil_or_concat' after
    · obtain ⟨rfl, hlast⟩ := List.append_inj' hsplit rfl
      obtain rfl := List.singleton_inj.1 hlast
      exact .inr ⟨hneeds, hle⟩
    · rw [← List.cons_append, ← List.append_assoc] at hsplit
      exact .inl ⟨before, s', after, (List.append_inj' hsplit rfl).1, hneeds, hle⟩
  · rintro (⟨before, s', after, rfl, hneeds, hle⟩ | ⟨hneeds, hle⟩)
    · exact ⟨before, s', after ++ [s], by simp, hneeds, hle⟩
    · exact ⟨ss, s, [], rfl, hneeds, hle⟩

namespace OptionNester

open Node

/-! ## Nesters in which an error shows -/

/-- The first of some branches begins a block. -/
def Begins (branches : List (Branch Node)) : Prop :=
  (branches.head?.map Branch.condition).map Inst.opcode = some .ifOption

/-- **An error shows**: in a tree outside all blocks, in a branch of an open block, or because an
open block does not begin with an `ifoption`. -/
def Faulty (n : OptionNester) : Prop :=
  hasErrorList n.root ∨
    ∃ block ∈ n.stack, ¬ Begins block.branches ∨ hasErrorBranches block.branches

theorem faulty_cons {root : List Node} {block : OptionBlock Node}
    {outer : List (OptionBlock Node)} : Faulty ⟨root, block :: outer⟩ ↔
      Faulty ⟨root, outer⟩ ∨ ¬ Begins block.branches ∨ hasErrorBranches block.branches := by
  rw [Faulty, Faulty, List.exists_mem_cons_iff, ← or_assoc, or_right_comm]

theorem hasError_optionBlock (branches : List (Branch Node)) (close : Inst) :
    (Node.optionBlock ⟨branches, close⟩).hasError ↔
      (¬ Begins branches ∨ hasErrorBranches branches) ∨ close.hasError := by
  have hmalformed : OptionBlock.malformed ⟨branches, some close⟩ ↔ ¬ Begins branches := by
    rw [OptionBlock.malformed, Begins]
    cases branches with
    | nil => simp
    | cons first others => simp
  rw [hasError, Bool.or_eq_true, Bool.or_eq_true, hmalformed, Option.any_some]

theorem begins_append {branches : List (Branch Node)} (h : branches ≠ [])
    (others : List (Branch Node)) : Begins (branches ++ others) ↔ Begins branches := by
  rw [Begins, Begins, List.head?_append_of_ne_nil _ h]

theorem begins_addToLast (node : Node) (branches : List (Branch Node)) :
    Begins (addToLast node branches) ↔ Begins branches := by
  fun_cases addToLast node branches with
  | case1 => exact Iff.rfl
  | case2 branch => exact Iff.rfl
  | case3 branch others hothers => exact Iff.rfl

theorem hasErrorBranches_addToLast (node : Node) {branches : List (Branch Node)}
    (h : branches ≠ []) : hasErrorBranches (addToLast node branches)
      = (hasErrorBranches branches || node.hasError) := by
  fun_induction addToLast node branches with
  | case1 => exact absurd rfl h
  | case2 branch =>
    simp [hasErrorBranches, hasErrorList_append, hasErrorList_singleton, Bool.or_assoc]
  | case3 branch others hothers ih =>
    have hne : others ≠ [] := fun hnil => hothers hnil
    rw [hasErrorBranches, hasErrorBranches, ih hne]
    simp only [Bool.or_assoc]

/-! ## One statement -/

/-- **What is done with a statement.** -/
inductive Pushed (n : OptionNester) : Statement → OptionNester → Prop
  | opens {i : Inst} (hop : i.opcode = .ifOption) : Pushed n (.inst i) (n.openBlock i)
  | branches {i : Inst} (hop : i.opcode = .elseIfOption ∨ i.opcode = .elseOption) :
    Pushed n (.inst i) (n.addBranch i)
  | closes {i : Inst} (hop : i.opcode = .endOption) : Pushed n (.inst i) (n.closeBlock (some i))
  | adds {s : Statement} (hif : s.opcode? ≠ some .ifOption) (hneeds : ¬ NeedsBlock s) :
    Pushed n s (n.add (.statement s))

theorem needsBlock_inst {i : Inst} : NeedsBlock (.inst i) ↔
    i.opcode = .elseIfOption ∨ i.opcode = .elseOption ∨ i.opcode = .endOption := by
  simp only [NeedsBlock, Statement.opcode?, Option.some_inj]

theorem pushed (n : OptionNester) (s : Statement) : n.Pushed s (n.push (.statement s)) := by
  cases s with
  | emptyLine tokens => exact .adds nofun (by rintro (hop | hop | hop) <;> cases hop)
  | inst i =>
    unfold push
    dsimp only
    split
    · next hop => exact .opens hop
    · next hop => exact .branches (.inl hop)
    · next hop => exact .branches (.inr hop)
    · next hop => exact .closes hop
    · next hif helseIf helse hend =>
      refine .adds (fun hop => hif (Option.some.inj hop)) fun hneeds => ?_
      obtain hop | hop | hop := needsBlock_inst.1 hneeds
      · exact helseIf hop
      · exact helse hop
      · exact hend hop

section Push

variable {n : OptionNester} (h : n.Open)

include h

theorem faulty_add (node : Node) : (n.add node).Faulty ↔ n.Faulty ∨ node.hasError := by
  obtain ⟨root, stack⟩ := n
  cases stack with
  | nil => simp [add, Faulty, hasErrorList_append, hasErrorList_singleton]
  | cons block outer =>
    obtain ⟨⟨hne, -⟩, -⟩ := List.forall_mem_cons.1 h
    rw [add]
    dsimp only
    rw [faulty_cons, faulty_cons, begins_addToLast, hasErrorBranches_addToLast node hne,
      Bool.or_eq_true, or_assoc, or_assoc]

omit h in
theorem faulty_openBlock (condition : Inst) : (n.openBlock condition).Faulty ↔
    n.Faulty ∨ condition.opcode ≠ .ifOption ∨ condition.hasError := by
  have hbegins : Begins [{ condition }] ↔ condition.opcode = .ifOption := Option.some_inj
  rw [openBlock, faulty_cons, hasErrorBranches_singleton, hbegins]

theorem faulty_addBranch {condition : Inst} (hcondition : condition.opcode ≠ .ifOption) :
    (n.addBranch condition).Faulty ↔ n.Faulty ∨ condition.hasError ∨ n.stack = [] := by
  obtain ⟨root, stack⟩ := n
  cases stack with
  | nil =>
    refine iff_of_true ?_ (.inr (.inr rfl))
    exact (faulty_openBlock condition).2 (.inr (.inl hcondition))
  | cons block outer =>
    obtain ⟨⟨hne, -⟩, -⟩ := List.forall_mem_cons.1 h
    rw [addBranch]
    dsimp only
    rw [faulty_cons, faulty_cons, begins_append hne, hasErrorBranches_append,
      hasErrorBranches_singleton, Bool.or_eq_true, or_iff_left (List.cons_ne_nil block outer),
      or_assoc, or_assoc]

theorem faulty_closeBlock (close : Inst) :
    (n.closeBlock (some close)).Faulty ↔ n.Faulty ∨ close.hasError ∨ n.stack = [] := by
  obtain ⟨root, stack⟩ := n
  cases stack with
  | nil =>
    refine iff_of_true ?_ (.inr (.inr rfl))
    refine (faulty_add h _).2 (.inr ((hasError_optionBlock [] close).2 (.inl (.inl ?_))))
    nofun
  | cons block outer =>
    obtain ⟨-, houter⟩ := List.forall_mem_cons.1 h
    rw [closeBlock]
    dsimp only
    rw [faulty_add (n := ⟨root, outer⟩) houter, hasError_optionBlock, faulty_cons,
      or_iff_left (List.cons_ne_nil block outer), or_assoc, or_assoc, or_assoc]

/-- **One statement** leaves an error that shows, if there is one in it or it is a directive that
comes without an open block. -/
theorem faulty_push (s : Statement) : (n.push (.statement s)).Faulty ↔
    n.Faulty ∨ s.hasError ∨ NeedsBlock s ∧ n.stack = [] := by
  have hpushed := n.pushed s
  generalize n.push (.statement s) = m at hpushed ⊢
  cases hpushed with
  | @opens i hop =>
    have hneeds : ¬ NeedsBlock (.inst i) := by simp [needsBlock_inst, hop]
    rw [faulty_openBlock, or_iff_right (not_not_intro hop), iff_false_intro hneeds, false_and,
      or_false, Statement.hasError]
  | @branches i hop =>
    have hneeds : NeedsBlock (.inst i) := needsBlock_inst.2 (hop.imp_right .inl)
    have hif : i.opcode ≠ .ifOption := by
      rintro heq
      rw [heq] at hop
      revert hop
      decide
    rw [faulty_addBranch h hif, iff_true_intro hneeds, true_and, Statement.hasError]
  | @closes i hop =>
    have hneeds : NeedsBlock (.inst i) := needsBlock_inst.2 (.inr (.inr hop))
    rw [faulty_closeBlock h, iff_true_intro hneeds, true_and, Statement.hasError]
  | adds hif hneeds =>
    rw [faulty_add h, iff_false_intro hneeds, false_and, or_false, Node.hasError]

end Push

/-- **One statement** opens or closes a block, unless it is a directive that comes without one. -/
theorem length_stack_push {n : OptionNester} {s : Statement}
    (h : ¬ (NeedsBlock s ∧ n.stack = [])) :
    ((n.push (.statement s)).stack.length : Int) = n.stack.length + openBlocks [s] := by
  rw [openBlocks_singleton]
  have hpushed := n.pushed s
  generalize n.push (.statement s) = m at hpushed ⊢
  cases hpushed with
  | @opens i hop =>
    simp [Statement.opcode?, hop, openBlock]
  | @branches i hop =>
    have hne : n.stack ≠ [] := fun hnil => h ⟨needsBlock_inst.2 (hop.imp_right .inl), hnil⟩
    obtain ⟨block, outer, hstack⟩ := List.exists_cons_of_ne_nil hne
    obtain hop | hop := hop
    · simp [Statement.opcode?, hop, addBranch, hstack]
    · simp [Statement.opcode?, hop, addBranch, hstack]
  | @closes i hop =>
    have hne : n.stack ≠ [] := fun hnil => h ⟨needsBlock_inst.2 (.inr (.inr hop)), hnil⟩
    obtain ⟨block, outer, hstack⟩ := List.exists_cons_of_ne_nil hne
    have hlength : (n.closeBlock (some i)).stack.length + 1 = n.stack.length := by
      simp [closeBlock, hstack, length_stack_add]
    rw [Statement.opcode?, hop, if_neg (by decide), if_pos rfl]
    omega
  | adds hif hneeds =>
    have hend : s.opcode? ≠ some .endOption := fun hop => hneeds (.inr (.inr hop))
    simp [hif, hend, length_stack_add]

/-! ## Any number of statements -/

/-- **Any number of statements** leave an error that shows, if there is one in them or some
directive comes without an open block; otherwise the stack has the open blocks. -/
theorem foldl_push_faulty (ss : List Statement) :
    let n := (ss.map Node.statement).foldl push {}
    n.Open ∧ (n.Faulty ↔ (∃ s ∈ ss, s.hasError) ∨ Stray ss) ∧
      (¬ Stray ss → (n.stack.length : Int) = openBlocks ss) := by
  induction ss using List.reverseRecOn with
  | nil =>
    refine ⟨open_empty, iff_of_false ?_ ?_, fun _ => rfl⟩
    · simp [Faulty, hasErrorList]
    · simp [Stray]
  | append_singleton ss s ih =>
    obtain ⟨hopen, hfaulty, hlength⟩ := ih
    rw [List.map_append, List.foldl_append, List.map_singleton, List.foldl_cons, List.foldl_nil]
    generalize (ss.map Node.statement).foldl push {} = n at hopen hfaulty hlength ⊢
    -- the stack tells the counter only as long as nothing is stray
    have hneeds : ¬ Stray ss →
        (NeedsBlock s ∧ openBlocks ss ≤ 0 ↔ NeedsBlock s ∧ n.stack = []) := by
      intro hstray
      rw [← hlength hstray, ← List.length_eq_zero_iff]
      exact and_congr_right fun _ => by omega
    have hany : (∃ s' ∈ ss ++ [s], s'.hasError) ↔ (∃ s' ∈ ss, s'.hasError) ∨ s.hasError := by
      simp [or_and_right, exists_or]
    refine ⟨(push_spec hopen _).2, ?_, fun hstray => ?_⟩
    · rw [faulty_push hopen, hfaulty, stray_concat_iff, hany]
      by_cases hstray : Stray ss
      · exact iff_of_true (.inl (.inr hstray)) (.inr (.inl hstray))
      · rw [hneeds hstray, iff_false_intro hstray, or_false, false_or, or_assoc]
    · rw [stray_concat_iff, not_or] at hstray
      rw [length_stack_push ((hneeds hstray.1).not.1 hstray.2), hlength hstray.1, openBlocks_concat]

/-! ## The finished trees -/

/-- **A block that stays open** is an error, in whichever blocks it stands. -/
theorem hasErrorList_closeAll {root : List Node} {stack : List (OptionBlock Node)}
    (h : (OptionNester.mk root stack).Open) (hne : stack ≠ []) :
    hasErrorList (closeAll root stack) := by
  fun_induction closeAll root stack with
  | case1 => exact absurd rfl hne
  | case2 block =>
    obtain ⟨branches, close⟩ := block
    obtain ⟨⟨-, hclose⟩, -⟩ := List.forall_mem_cons.1 h
    dsimp only at hclose
    subst hclose
    rw [hasErrorList_append, hasErrorList_singleton]
    simp [hasError, OptionBlock.malformed]
  | case3 block outer others branches ih =>
    obtain ⟨-, houter⟩ := List.forall_mem_cons.1 h
    obtain ⟨⟨hbranches, hclose⟩, hothers⟩ := List.forall_mem_cons.1 houter
    refine ih ?_ (List.cons_ne_nil _ _)
    exact List.forall_mem_cons.2 ⟨⟨addToLast_ne_nil _ hbranches, hclose⟩, hothers⟩

theorem hasErrorList_finish {n : OptionNester} (h : n.Open) :
    hasErrorList n.finish.1 ↔ n.Faulty ∨ n.stack ≠ [] := by
  obtain ⟨root, stack⟩ := n
  rw [finish]
  by_cases hstack : stack = []
  · subst hstack
    simp [closeAll, Faulty]
  · exact iff_of_true (hasErrorList_closeAll h hstack) (.inr hstack)

end OptionNester

/-- **When nested statements have an error**: one of them has an error itself, or the directives are
not well nested. -/
theorem hasError_nestOptions (ss : List Statement) :
    (Node.block (nestOptions (ss.map Node.statement))).hasError ↔
      (∃ s ∈ ss, s.hasError) ∨
        (∃ before s after, ss = before ++ s :: after ∧
          (s.opcode? = some .elseIfOption ∨ s.opcode? = some .elseOption ∨
            s.opcode? = some .endOption) ∧ openBlocks before ≤ 0) ∨
        0 < openBlocks ss := by
  change _ ↔ _ ∨ Stray ss ∨ _
  obtain ⟨hopen, hfaulty, hlength⟩ := OptionNester.foldl_push_faulty ss
  rw [Node.hasError, nestOptions, OptionNester.hasErrorList_finish hopen, hfaulty, or_assoc]
  by_cases hstray : Stray ss
  · exact iff_of_true (.inr (.inl hstray)) (.inr (.inl hstray))
  · rw [← hlength hstray, ← List.length_pos_iff, Int.natCast_pos]

end Burghard

end WhitespaceAsm

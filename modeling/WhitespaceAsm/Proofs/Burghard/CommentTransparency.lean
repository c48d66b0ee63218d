import WhitespaceAsm.Proofs.Burghard.CutWord
import WhitespaceAsm.Proofs.Burghard.Nesting
import WhitespaceAsm.Proofs.Program

/-!
# Comments inside words do not matter

A program in which words have been cut is read line by line like the program itself. The statements
have the same outlines, and so do the blocks that the option directives among them make.

* `IgnoresCuts.readInst`, `IgnoresCuts.readStatement`, **`IgnoresCuts.readAll`**: one line, and all
  of them;
* `OptionNester.SameOutline`, `OptionNester.SameOutline.push`, **`nestOptions_outline`**: trees in
  blocks;
* **`parse_commented_word`**: a program with a comment put into one of its words.
-/

namespace WhitespaceAsm.Burghard

/-! ## Reading lines -/

/-- **Rules for lines that do not depend on how words are cut.** -/
structure IgnoresCuts (r : LineRules) : Prop where
  separates : r.separates = Token.isSpaceLike
  isWord : r.isWord = isWord
  endsLine : r.endsLine = endsLine
  finish : ∀ {head head' : Token} {args args' : List Arg},
    CutArgs (⟨[], head⟩ :: args) (⟨[], head'⟩ :: args') →
    ∀ before before' after after' : List Token,
      (r.finish { before, head, args, after }).outline
        = (r.finish { before := before', head := head', args := args', after := after' }).outline

theorem lineRules_ignoresCuts : IgnoresCuts lineRules where
  separates := rfl
  isWord := rfl
  endsLine := rfl
  finish := finish_outline

namespace IgnoresCuts

variable {r : LineRules} (hr : IgnoresCuts r)

include hr

theorem readInst {head head' : Located} {ts ts' : List Located}
    (h : Cut (head :: ts) (head' :: ts')) (hword : Burghard.isWord head.token)
    (hword' : Burghard.isWord head'.token) {before : List Token} {i : Inst} {rest : List Located}
    (hi : r.readInst before head.token ts = .ok (i, rest)) :
    ∃ i' rest', r.readInst before head'.token ts' = .ok (i', rest') ∧
      i.outline = i'.outline ∧ Cut rest rest' := by
  obtain ⟨hargs, hafter, hrest⟩ := h.readArgs []
  rw [readArgs_cons hword, readArgs_cons hword'] at hargs hafter hrest
  dsimp only at hargs hafter hrest
  rw [LineRules.readInst, hr.separates, hr.isWord, hr.endsLine] at hi
  rw [LineRules.readInst, hr.separates, hr.isWord, hr.endsLine]
  split at hi
  · cases hi
  · next close after hend =>
    cases hi
    obtain ⟨after', hend', hcut⟩ := hrest.readLineEnd hend
    rw [hend']
    exact ⟨_, after', rfl, hr.finish hargs _ _ _ _, hcut⟩

theorem readStatement {t t' : Located} {ts ts' : List Located} (h : Cut (t :: ts) (t' :: ts'))
    {p : ParsedStatement} (hp : r.readStatement t ts = .ok p) :
    ∃ p', r.readStatement t' ts' = .ok p' ∧
      p.statement.outline = p'.statement.outline ∧ Cut p.rest p'.rest := by
  obtain ⟨hbefore, hrest⟩ := h.spaces
  rw [LineRules.readStatement, hr.separates] at hp ⊢
  rw [← hbefore]
  generalize (t :: ts).drop _ = more at hp hrest
  generalize (t' :: ts').drop _ = more' at hrest ⊢
  cases hrest with
  | nil =>
    cases hp
    exact ⟨_, rfl, rfl, .nil⟩
  | @same head head' more more' token raw rest =>
    have hcut : Cut (head :: more) (head' :: more') := .same token raw rest
    by_cases hword : r.isWord head.token
    · have hword' : r.isWord head'.token := by rw [← token]; exact hword
      simp only [if_pos hword, if_pos hword'] at hp ⊢
      rw [hr.isWord] at hword hword'
      split at hp
      · cases hp
      · next i after hi =>
        cases hp
        obtain ⟨i', after', hi', hsame, hcut'⟩ := hr.readInst hcut hword hword' hi
        rw [hi']
        exact ⟨_, rfl, congrArg Outline.inst hsame, hcut'⟩
    · have hword' : ¬ r.isWord head'.token := by rw [← token]; exact hword
      simp only [if_neg hword, if_neg hword'] at hp ⊢
      rw [hr.endsLine] at hp ⊢
      split at hp
      · cases hp
      · next close after hend =>
        cases hp
        obtain ⟨after', hend', hcut'⟩ := hcut.readLineEnd hend
        rw [hend']
        exact ⟨_, rfl, rfl, hcut'⟩
  | @word head first between second more more' u v token first_token between_kind second_token
      rest =>
    have hcut : Cut (head :: more) (first :: between :: second :: more') :=
      .word token first_token between_kind second_token rest
    have hword : r.isWord head.token := by rw [hr.isWord, token]; rfl
    have hword' : r.isWord first.token := by rw [hr.isWord, first_token]; rfl
    simp only [if_pos hword, if_pos hword'] at hp ⊢
    rw [hr.isWord] at hword hword'
    split at hp
    · cases hp
    · next i after hi =>
      cases hp
      obtain ⟨i', after', hi', hsame, hcut'⟩ := hr.readInst hcut hword hword' hi
      rw [hi']
      exact ⟨_, rfl, congrArg Outline.inst hsame, hcut'⟩

/-- **A program with cut words** is read like the program itself. -/
theorem readAll {ts ts' : List Located} (h : Cut ts ts') {ss : List (Pos × Statement)}
    (hss : r.reader.readAll ts = .ok ss) :
    ∃ ss', r.reader.readAll ts' = .ok ss' ∧
      ss.map (·.2.outline) = ss'.map (·.2.outline) := by
  induction hn : ts.length using Nat.strong_induction_on generalizing ts ts' ss with
  | _ n ih =>
    cases ts with
    | nil =>
      cases h with
      | nil => exact ⟨ss, hss, rfl⟩
    | cons t ts =>
      obtain ⟨t', us, rfl⟩ : ∃ t' us, ts' = t' :: us := by
        cases h with
        | same token raw rest => exact ⟨_, _, rfl⟩
        | word token first_token between_kind second_token rest => exact ⟨_, _, rfl⟩
      cases hp : r.reader.read t ts with
      | error e =>
        rw [StatementReader.readAll_cons_error hp] at hss
        cases hss
      | ok p =>
        obtain ⟨p', hp', hsame, hcut⟩ := hr.readStatement h hp
        rw [StatementReader.readAll_cons hp] at hss
        have hread : r.reader.read t' us = .ok p' := hp'
        rw [StatementReader.readAll_cons hread]
        cases hmore : r.reader.readAll p.rest with
        | error e => rw [hmore] at hss; cases hss
        | ok more =>
          rw [hmore] at hss
          cases hss
          have hlt : p.rest.length < n := by
            rw [← hn, List.length_cons]
            exact Nat.lt_succ_of_le (r.reader.rest_length_le hp)
          obtain ⟨more', hmore', hall⟩ := ih _ hlt hcut hmore rfl
          rw [hmore']
          exact ⟨_, rfl, by rw [List.map_cons, List.map_cons, hall, hsame]⟩

end IgnoresCuts

/-! ## Blocks -/

namespace OptionNester

/-- **Nesters whose trees have the same outlines.** -/
structure SameOutline (m n : OptionNester) : Prop where
  root : m.root.map Node.outline = n.root.map Node.outline
  stack : m.stack.map (fun b => (Node.optionBlock b).outline)
    = n.stack.map fun b => (Node.optionBlock b).outline

theorem outline_optionBlock_congr {a b : OptionBlock Node}
    (hbranches : a.branches.map Branch.outline = b.branches.map Branch.outline)
    (hclose : a.close.map Inst.outline = b.close.map Inst.outline) :
    (Node.optionBlock a).outline = (Node.optionBlock b).outline := by
  rw [Node.outline_optionBlock, Node.outline_optionBlock, hbranches, hclose]

theorem outline_optionBlock_inj {a b : OptionBlock Node}
    (h : (Node.optionBlock a).outline = (Node.optionBlock b).outline) :
    a.branches.map Branch.outline = b.branches.map Branch.outline ∧
      a.close.map Inst.outline = b.close.map Inst.outline := by
  rw [Node.outline_optionBlock, Node.outline_optionBlock] at h
  exact Outline.optionBlock.inj h

theorem map_outline_addToLast {node node' : Node} (hnode : node.outline = node'.outline)
    {branches branches' : List (Branch Node)}
    (h : branches.map Branch.outline = branches'.map Branch.outline) :
    (addToLast node branches).map Branch.outline
      = (addToLast node' branches').map Branch.outline := by
  obtain rfl | ⟨init, last, rfl⟩ := List.eq_nil_or_concat branches
  · rw [List.map_nil] at h
    rw [List.map_eq_nil_iff.1 h.symm]
    rfl
  · rw [List.concat_eq_append, List.map_append, List.map_singleton] at h
    obtain ⟨init', lasts, rfl, hinit, hlasts⟩ := List.map_eq_append_iff.1 h.symm
    obtain ⟨last', rfl, hlast⟩ := List.map_eq_singleton_iff.1 hlasts
    obtain ⟨hcondition, hbody⟩ := Prod.mk.inj hlast
    rw [List.concat_eq_append, addToLast_append_singleton, addToLast_append_singleton,
      List.map_append, List.map_append, hinit]
    simp only [List.map_singleton, Branch.outline, List.map_append, hcondition, hbody, hnode]

namespace SameOutline

section Stack

variable {root root' : List Node} {block : OptionBlock Node}
  {outer outer' stack : List (OptionBlock Node)}

theorem nil_inv (h : SameOutline ⟨root, []⟩ ⟨root', stack⟩) : stack = [] :=
  List.map_eq_nil_iff.1 h.stack.symm

theorem cons_inv (h : SameOutline ⟨root, block :: outer⟩ ⟨root', stack⟩) :
    ∃ block' outer', stack = block' :: outer' ∧
      (Node.optionBlock block).outline = (Node.optionBlock block').outline ∧
      SameOutline ⟨root, outer⟩ ⟨root', outer'⟩ := by
  have hstack := h.stack
  cases stack with
  | nil => cases hstack
  | cons block' outer' =>
    obtain ⟨hblock, houter⟩ := List.cons.inj hstack
    exact ⟨block', outer', rfl, hblock, h.root, houter⟩

theorem cons (h : SameOutline ⟨root, outer⟩ ⟨root', outer'⟩) {block' : OptionBlock Node}
    (hblock : (Node.optionBlock block).outline = (Node.optionBlock block').outline) :
    SameOutline ⟨root, block :: outer⟩ ⟨root', block' :: outer'⟩ :=
  ⟨h.root, congrArg₂ List.cons hblock h.stack⟩

end Stack

variable {m n : OptionNester} (h : SameOutline m n)

include h

theorem add {node node' : Node} (hnode : node.outline = node'.outline) :
    SameOutline (m.add node) (n.add node') := by
  obtain ⟨root, stack⟩ := m
  obtain ⟨root', stack'⟩ := n
  cases stack with
  | nil =>
    obtain rfl := h.nil_inv
    exact ⟨by simp [OptionNester.add, h.root, hnode], rfl⟩
  | cons block outer =>
    obtain ⟨block', outer', rfl, hblock, houter⟩ := h.cons_inv
    obtain ⟨hbranches, hclose⟩ := outline_optionBlock_inj hblock
    exact houter.cons (outline_optionBlock_congr (map_outline_addToLast hnode hbranches) hclose)

theorem openBlock {i i' : Inst} (hi : i.outline = i'.outline) :
    SameOutline (m.openBlock i) (n.openBlock i') :=
  h.cons (outline_optionBlock_congr (by simp [Branch.outline, hi]) rfl)

theorem addBranch {i i' : Inst} (hi : i.outline = i'.outline) :
    SameOutline (m.addBranch i) (n.addBranch i') := by
  obtain ⟨root, stack⟩ := m
  obtain ⟨root', stack'⟩ := n
  cases stack with
  | nil =>
    obtain rfl := h.nil_inv
    exact h.openBlock hi
  | cons block outer =>
    obtain ⟨block', outer', rfl, hblock, houter⟩ := h.cons_inv
    obtain ⟨hbranches, hclose⟩ := outline_optionBlock_inj hblock
    exact houter.cons (outline_optionBlock_congr (by simp [Branch.outline, hi, hbranches]) hclose)

theorem closeBlock {close close' : Option Inst}
    (hclose : close.map Inst.outline = close'.map Inst.outline) :
    SameOutline (m.closeBlock close) (n.closeBlock close') := by
  obtain ⟨root, stack⟩ := m
  obtain ⟨root', stack'⟩ := n
  cases stack with
  | nil =>
    obtain rfl := h.nil_inv
    exact h.add (outline_optionBlock_congr rfl hclose)
  | cons block outer =>
    obtain ⟨block', outer', rfl, hblock, houter⟩ := h.cons_inv
    obtain ⟨hbranches, -⟩ := outline_optionBlock_inj hblock
    exact houter.add (outline_optionBlock_congr hbranches hclose)

theorem push {s s' : Statement} (hs : s.outline = s'.outline) :
    SameOutline (m.push (.statement s)) (n.push (.statement s')) := by
  have hnode : (Node.statement s).outline = (Node.statement s').outline := by
    rw [Node.outline_statement, Node.outline_statement, hs]
  cases s with
  | emptyLine ts =>
    cases s' with
    | emptyLine ts' => exact h.add hnode
    | inst i' => cases hs
  | inst i =>
    cases s' with
    | emptyLine ts' => cases hs
    | inst i' =>
      have hi : i.outline = i'.outline := Outline.inst.inj hs
      have hopcode : i.opcode = i'.opcode := congrArg InstOutline.opcode hi
      rw [OptionNester.push, OptionNester.push, ← hopcode]
      split
      · exact h.openBlock hi
      · exact h.addBranch hi
      · exact h.addBranch hi
      · exact h.closeBlock (congrArg some hi)
      · exact h.add hnode

end SameOutline

theorem map_outline_closeAll {root root' : List Node} (stack : List (OptionBlock Node)) :
    ∀ {stack' : List (OptionBlock Node)}, SameOutline ⟨root, stack⟩ ⟨root', stack'⟩ →
      (closeAll root stack).map Node.outline = (closeAll root' stack').map Node.outline := by
  induction stack using closeAll.induct
  case case1 =>
    intro stack' h
    obtain rfl := h.nil_inv
    rw [closeAll, closeAll]
    exact h.root
  case case2 block =>
    intro stack' h
    obtain ⟨block', outer', rfl, hblock, houter⟩ := h.cons_inv
    obtain rfl := houter.nil_inv
    rw [closeAll, closeAll, List.map_append, List.map_append, h.root, List.map_singleton,
      List.map_singleton, hblock]
  case case3 block outer others branches ih =>
    intro stack' h
    obtain ⟨block', outer', rfl, hblock, houter⟩ := h.cons_inv
    obtain ⟨parent', others', rfl, hparent, hothers⟩ := houter.cons_inv
    obtain ⟨hbranches, hclose⟩ := outline_optionBlock_inj hparent
    rw [closeAll, closeAll]
    exact ih (hothers.cons
      (outline_optionBlock_congr (map_outline_addToLast hblock hbranches) hclose))

end OptionNester

/-- **Blocks are made of outlines**: the option directives alone say how statements are nested. -/
theorem nestOptions_outline (ss ss' : List Statement)
    (h : ss.map Statement.outline = ss'.map Statement.outline) :
    (nestOptions (ss.map Node.statement)).map Node.outline
      = (nestOptions (ss'.map Node.statement)).map Node.outline := by
  have hpush : ∀ (ss ss' : List Statement) {m n : OptionNester}, m.SameOutline n →
      ss.map Statement.outline = ss'.map Statement.outline →
      ((ss.map Node.statement).foldl OptionNester.push m).SameOutline
        ((ss'.map Node.statement).foldl OptionNester.push n) := by
    intro ss
    induction ss with
    | nil =>
      intro ss' m n hsame h
      rw [List.map_eq_nil_iff.1 h.symm]
      exact hsame
    | cons s ss ih =>
      intro ss' m n hsame h
      cases ss' with
      | nil => cases h
      | cons s' ss' =>
        obtain ⟨hs, hss⟩ := List.cons.inj h
        exact ih ss' (hsame.push hs) hss
  exact OptionNester.map_outline_closeAll _ (hpush ss ss' ⟨rfl, rfl⟩ h)

/-! ## Programs -/

/-- **A block comment inside a word does not matter.** The trees of the program and of the one with
the comment have the same instructions in the same blocks, with arguments that carry the same. -/
theorem parse_commented_word {p u v q c : Bytes}
    (hword : ∃ t ∈ locate .codePoint {} (lex (p ++ (u ++ v) ++ q)),
      t.token.kind = .word ∧ t.token.text = u ++ v ∧ t.start.offset = p.length)
    (hu : u ≠ []) (hv : v ≠ []) (hvalid : Utf8.isValid u) (hvalid' : Utf8.isValid v)
    (hne : c ≠ []) (hc : ∀ b ∈ c, Plain b) :
    ∃ tree tree', Dialect.burghard.parse (p ++ (u ++ v) ++ q) = .ok tree ∧
      Dialect.burghard.parse (p ++ (u ++ commented c ++ v) ++ q) = .ok tree' ∧
      tree.outline = tree'.outline := by
  obtain ⟨before, after, hlex, hlex'⟩ := lex_commented hword hu hv hvalid hvalid' hne hc
  obtain ⟨ss, hss, -⟩ := statements_reading (p ++ (u ++ v) ++ q)
  have hraw : ∀ t ∈ before ++ word (u ++ v) :: after, t.kind ≠ .spliced := by
    rw [← hlex]
    exact fun t ht => (isRaw_of_mem_lex ht).kind_ne_spliced
  rw [List.forall_mem_append, List.forall_mem_cons] at hraw
  have hcut := cut_locate_word (u := .codePoint) hraw.1 hraw.2.2 u v c {} {}
  rw [← hlex, ← hlex'] at hcut
  obtain ⟨ss', hss', hsame⟩ := lineRules_ignoresCuts.readAll hcut hss
  have hparse : ∀ {src : Bytes} {ss : List (Pos × Statement)}, statements src = .ok ss →
      Dialect.burghard.parse src = .ok (Dialect.burghard.assemble (ss.map (·.2))) := by
    intro src ss h
    rw [Dialect.parse, Dialect.statements, h]
    rfl
  refine ⟨_, _, hparse hss, hparse hss', ?_⟩
  have hblocks := nestOptions_outline (ss.map (·.2)) (ss'.map (·.2)) (by
    rw [List.map_map, List.map_map]
    exact hsame)
  simp only [Dialect.assemble, Node.outline, Node.outlineOption, Node.outlineList_eq_map, hblocks]

/-- A comment splits the word of a mnemonic inside a block. -/
theorem parse_commented_word_mnemonic :
    let p := ascii "ifoption x\n "
    let q := ascii " 1 ; one\nendoption"
    ∃ tree tree', Dialect.burghard.parse (p ++ (ascii "pu" ++ ascii "sh") ++ q) = .ok tree ∧
      Dialect.burghard.parse (p ++ (ascii "pu" ++ commented (ascii "a 1") ++ ascii "sh") ++ q)
        = .ok tree' ∧
      tree.outline = tree'.outline :=
  parse_commented_word (by decide +kernel) (by decide) (by decide) (by decide +kernel)
    (by decide +kernel) (by decide) (by unfold Plain; decide +kernel)

end WhitespaceAsm.Burghard

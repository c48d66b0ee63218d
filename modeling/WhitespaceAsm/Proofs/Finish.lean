import WhitespaceAsm.Proofs.Burghard.Parse
import WhitespaceAsm.Proofs.Voliva.Parse

/-!
# What finishing keeps of an instruction

Words are put together and typed, and some become mnemonics. The tokens that end an instruction
stay as they are, and those before them keep each property that none of these steps breaks.

* **`Inst.MadeFrom`**: an instruction with the end and a property of another;
  `Inst.madeFrom_resolve`, `Inst.madeFrom_mnemonic`, `Inst.MadeFrom.withArgs`: the steps that lead
  to one;
* **`Burghard.finish_madeFrom`**, **`Voliva.typeInst_madeFrom`**: the instructions of a line, under
  `Burghard.Kept` and `Voliva.Kept`.
-/

namespace WhitespaceAsm

/-! ## Instructions -/

theorem Arg.forall_tokens_iff {P : Token → Prop} {a : Arg} :
    (∀ t ∈ a.tokens, P t) ↔ (∀ t ∈ a.sep, P t) ∧ P a.token := by
  rw [Arg.tokens, List.forall_mem_append, List.forall_mem_singleton]

namespace Inst

/-- The tokens of an instruction before those that end it. -/
def front (i : Inst) : List Token := i.before ++ [i.head] ++ i.args.flatMap Arg.tokens

variable {P : Token → Prop} {i j k : Inst}

theorem tokens_eq_front (i : Inst) : i.tokens = i.front ++ i.after := rfl

theorem forall_front_iff : (∀ t ∈ i.front, P t) ↔
    (∀ t ∈ i.before, P t) ∧ P i.head ∧ ∀ a ∈ i.args, ∀ t ∈ a.tokens, P t := by
  rw [front, List.forall_mem_append, List.forall_mem_append, List.forall_mem_singleton,
    List.forall_mem_flatMap, and_assoc]

theorem forall_tokens_iff : (∀ t ∈ i.tokens, P t) ↔
    (∀ t ∈ i.before, P t) ∧ P i.head ∧ (∀ a ∈ i.args, ∀ t ∈ a.tokens, P t) ∧
      ∀ t ∈ i.after, P t := by
  rw [tokens_eq_front, List.forall_mem_append, forall_front_iff, and_assoc, and_assoc]

/-- **An instruction that is made from another** ends like it, and has a property in all tokens
before the end when the other has. -/
structure MadeFrom (P : Token → Prop) (j i : Inst) : Prop where
  after : j.after = i.after
  front : (∀ t ∈ i.front, P t) → ∀ t ∈ j.front, P t

theorem MadeFrom.trans (h : k.MadeFrom P j) (h' : j.MadeFrom P i) : k.MadeFrom P i :=
  ⟨h.after.trans h'.after, fun hi => h.front (h'.front hi)⟩

theorem MadeFrom.forall_tokens (h : j.MadeFrom P i) (hi : ∀ t ∈ i.tokens, P t) :
    ∀ t ∈ j.tokens, P t := by
  rw [tokens_eq_front, List.forall_mem_append] at hi ⊢
  rw [h.after]
  exact ⟨h.front hi.1, hi.2⟩

theorem madeFrom_resolve (hP : ∀ t opcode, P t → P (t.retype (.mnemonic opcode))) (i : Inst)
    (overloads : Option (List Signature)) : (i.resolve overloads).MadeFrom P i := by
  obtain ⟨hbefore, hargs, hafter, opcode, hhead⟩ := i.resolve_frame overloads
  refine ⟨hafter, fun h => ?_⟩
  rw [forall_front_iff] at h ⊢
  rw [hbefore, hargs]
  refine ⟨h.1, ?_, h.2.2⟩
  rcases hhead with hhead | hhead
  · rw [hhead, Token.setOpcode]
    split
    · exact hP _ _ h.2.1
    · exact h.2.1
  · rw [hhead]
    exact h.2.1

theorem madeFrom_mnemonic (hP : ∀ t opcode, P t → P (t.retype (.mnemonic opcode))) (i : Inst)
    (opcode : Opcode) :
    { i with head := i.head.retype (.mnemonic opcode) : Inst }.MadeFrom P i := by
  refine ⟨rfl, fun h => ?_⟩
  obtain ⟨hbefore, hhead, hargs⟩ := forall_front_iff.1 h
  exact forall_front_iff.2 ⟨hbefore, hP _ _ hhead, hargs⟩

theorem MadeFrom.withArgs (h : j.MadeFrom P i) {args : List Arg}
    (hargs : (∀ a ∈ i.args, ∀ t ∈ a.tokens, P t) → ∀ a ∈ args, ∀ t ∈ a.tokens, P t)
    (validTypes : Bool) : { j with args, validTypes : Inst }.MadeFrom P i := by
  refine ⟨h.after, fun hi => ?_⟩
  obtain ⟨hbefore, hhead, -⟩ := forall_front_iff.1 (h.front hi)
  exact forall_front_iff.2 ⟨hbefore, hhead, hargs (forall_front_iff.1 hi).2.2⟩

end Inst

/-! ## Burghard -/

namespace Burghard

/-- **A property of tokens that words keep** when they are put together, and when they become
arguments and mnemonics. -/
structure Kept (P : Token → Prop) : Prop where
  splice : ∀ {lhs rhs between}, P lhs → (∀ t ∈ between, P t) → P rhs → P (splice lhs between rhs)
  typeArg : ∀ kind {t}, P t → P (typeArg kind t).1
  mnemonic : ∀ t opcode, P t → P (t.retype (.mnemonic opcode))

namespace Kept

variable {P : Token → Prop} (hP : Kept P)

include hP

theorem spliceArgs {lhs : Token} (hlhs : P lhs) {args : List Arg}
    (hargs : ∀ a ∈ args, ∀ t ∈ a.tokens, P t) :
    P (spliceArgs lhs args).1 ∧ ∀ a ∈ (Burghard.spliceArgs lhs args).2, ∀ t ∈ a.tokens, P t := by
  induction args generalizing lhs with
  | nil => exact ⟨hlhs, hargs⟩
  | cons a args ih =>
    obtain ⟨ha, hargs⟩ := List.forall_mem_cons.1 hargs
    obtain ⟨hsep, htoken⟩ := Arg.forall_tokens_iff.1 ha
    rw [Burghard.spliceArgs]
    split
    · exact ih (hP.splice hlhs hsep htoken) hargs
    · obtain ⟨hfirst, hrest⟩ := ih htoken hargs
      exact ⟨hlhs, List.forall_mem_cons.2 ⟨Arg.forall_tokens_iff.2 ⟨hsep, hfirst⟩, hrest⟩⟩

theorem typeArgs (kinds : List ArgKind) {args : List Arg}
    (hargs : ∀ a ∈ args, ∀ t ∈ a.tokens, P t) :
    ∀ a ∈ (typeArgs kinds args).1, ∀ t ∈ a.tokens, P t := by
  induction kinds generalizing args with
  | nil => exact hargs
  | cons kind kinds ih =>
    cases args with
    | nil => exact hargs
    | cons a args =>
      obtain ⟨ha, hargs⟩ := List.forall_mem_cons.1 hargs
      obtain ⟨hsep, htoken⟩ := Arg.forall_tokens_iff.1 ha
      rw [Burghard.typeArgs]
      by_cases hword : kind = .word
      · simp only [hword, if_true]
        exact List.forall_mem_cons.2 ⟨Arg.forall_tokens_iff.2 ⟨hsep, htoken⟩, ih hargs⟩
      · simp only [hword, if_false]
        exact List.forall_mem_cons.2
          ⟨Arg.forall_tokens_iff.2 ⟨hsep, hP.typeArg kind htoken⟩, ih hargs⟩

theorem typeInst (i : Inst) : (typeInst i).MadeFrom P i := by
  unfold Burghard.typeInst
  generalize mnemonics.lookup? i.head.unwrap.text = overloads
  let mnemonic : Inst := { i with head := i.head.retype (.mnemonic .invalid) }
  have hresolved : (mnemonic.resolve overloads).MadeFrom P i :=
    (Inst.madeFrom_resolve hP.mnemonic mnemonic overloads).trans
      (Inst.madeFrom_mnemonic hP.mnemonic i .invalid)
  dsimp only
  cases overloads with
  | none =>
    refine hresolved.withArgs (fun hargs a ha => ?_) _
    obtain ⟨b, hb, rfl⟩ := List.mem_map.1 ha
    obtain ⟨hsep, htoken⟩ := Arg.forall_tokens_iff.1 (hargs b hb)
    exact Arg.forall_tokens_iff.2 ⟨hsep, hP.typeArg .string htoken⟩
  | some signatures =>
    dsimp only
    split
    · exact hresolved
    · exact hresolved.withArgs (hP.typeArgs _) _

end Kept

/-- **Finishing an instruction** keeps its end, and whatever its words keep. -/
theorem finish_madeFrom {P : Token → Prop} (hP : Kept P) (i : Inst) :
    (lineRules.finish i).MadeFrom P i := by
  rw [finish_eq]
  refine (hP.typeInst _).trans ⟨rfl, fun h => ?_⟩
  obtain ⟨hbefore, hhead, hargs⟩ := Inst.forall_front_iff.1 h
  obtain ⟨hhead', hargs'⟩ := hP.spliceArgs hhead hargs
  exact Inst.forall_front_iff.2 ⟨hbefore, hhead', hargs'⟩

end Burghard

/-! ## Voliva -/

namespace Voliva

/-- **A property of tokens that words keep** when they become arguments and mnemonics. -/
structure Kept (P : Token → Prop) : Prop where
  typeWord : ∀ kind {t}, P t → P (typeWord kind t)
  mnemonic : ∀ t opcode, P t → P (t.retype (.mnemonic opcode))

variable {P : Token → Prop}

theorem Kept.typeArgs (hP : Kept P) (kinds : List ArgKind) {args : List Arg}
    (hargs : ∀ a ∈ args, ∀ t ∈ a.tokens, P t) :
    ∀ a ∈ typeArgs kinds args, ∀ t ∈ a.tokens, P t := by
  fun_induction Voliva.typeArgs kinds args with
  | case1 kind kinds a args ih =>
    obtain ⟨ha, hargs⟩ := List.forall_mem_cons.1 hargs
    obtain ⟨hsep, htoken⟩ := Arg.forall_tokens_iff.1 ha
    exact List.forall_mem_cons.2
      ⟨Arg.forall_tokens_iff.2 ⟨hsep, hP.typeWord kind htoken⟩, ih hargs⟩
  | case2 => exact hargs

theorem typeInst_madeFrom (hP : Kept P) (i : Inst) : (typeInst i).MadeFrom P i := by
  unfold typeInst
  split
  · next text errors hhead =>
    generalize mnemonics.lookup? text = overloads
    have hmnemonic := Inst.madeFrom_mnemonic hP.mnemonic i .invalid
    rw [hhead] at hmnemonic
    have hresolved := (Inst.madeFrom_resolve hP.mnemonic _ overloads).trans hmnemonic
    dsimp only
    split
    · exact hresolved
    · exact hresolved.withArgs (hP.typeArgs _) _
  · exact ⟨rfl, id⟩

end Voliva

end WhitespaceAsm

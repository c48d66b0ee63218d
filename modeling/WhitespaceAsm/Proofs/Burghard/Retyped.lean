import WhitespaceAsm.Proofs.Finish

/-!
# Tokens that carry something else

Typing an instruction changes what its tokens carry and nothing else. Each token keeps its place,
its text and its parts, and a word that has been put together keeps the text of its word.

* **`Token.Retyped`**: a token that carries something else; `Token.Retyped.trans`,
  `Token.Retyped.length_leaves`;
* **`typeInst_retyped`**: the tokens of an instruction one by one.
-/

namespace WhitespaceAsm

/-- **A token that carries something else.** What it wraps wraps nothing itself. The quotes of a
word can become those of a string. -/
inductive Token.Retyped : Token → Token → Prop
  | plain (text : Bytes) (p q : Payload) : Retyped (.plain text p) (.plain text q)
  | quoted (text inner : Bytes) (p q : Payload) (quotes : QuoteStyle) (terminated : Bool) :
      Retyped (.quoted text (some (.plain inner p)) quotes terminated)
        (.quoted text (some (.plain inner q)) quotes terminated)
  | unquoted (text inner : Bytes) (p q : Payload) (quotes : QuoteStyle) (terminated : Bool) :
      Retyped (.quoted text (some (.plain inner p)) quotes terminated) (.plain text q)
  | spliced (text : Bytes) (parts : List Token) (word : Bytes) (p q : Payload) :
      Retyped (.spliced text parts (some (.plain word p)))
        (.spliced text parts (some (.plain word q)))

namespace Token.Retyped

variable {t u v : Token} (h : t.Retyped u)

include h

theorem trans (h' : u.Retyped v) : t.Retyped v := by
  cases h with
  | plain text p q => cases h' with | plain _ _ r => exact .plain text p r
  | quoted text inner p q quotes terminated =>
    cases h' with
    | quoted _ _ _ r => exact .quoted text inner p r quotes terminated
    | unquoted _ _ _ r => exact .unquoted text inner p r quotes terminated
  | unquoted text inner p q quotes terminated =>
    cases h' with | plain _ _ r => exact .unquoted text inner p r quotes terminated
  | spliced text parts word p q =>
    cases h' with | spliced _ _ _ _ r => exact .spliced text parts word p r

theorem right : u.Retyped u := by
  cases h with
  | plain text p q => exact .plain text q q
  | quoted text inner p q quotes terminated => exact .quoted text inner q q quotes terminated
  | unquoted text inner p q quotes terminated => exact .plain text q q
  | spliced text parts word p q => exact .spliced text parts word q q

theorem length_leaves : t.leaves.length = u.leaves.length := by
  cases h with
  | plain | quoted | unquoted | spliced => rfl

/-! ### Typing -/

theorem retype (r : Payload) : t.Retyped (u.retype r) := by
  cases h with
  | plain text p q => exact .plain text p r
  | quoted text inner p q quotes terminated => exact .quoted text inner p r quotes terminated
  | unquoted text inner p q quotes terminated => exact .unquoted text inner p r quotes terminated
  | spliced text parts word p q => exact .spliced text parts word p r

theorem setOpcode (opcode : Opcode) : t.Retyped (u.setOpcode opcode) := by
  unfold Token.setOpcode
  split
  · exact h.retype _
  · exact h

theorem stringArg : t.Retyped (Burghard.stringArg u) := by
  unfold Burghard.stringArg
  split
  · next text inner quotes terminated =>
    cases h with | quoted _ word p => exact .unquoted text word p _ quotes terminated
  · exact h.retype _

theorem typeArg (kind : ArgKind) : t.Retyped (Burghard.typeArg kind u).1 := by
  unfold Burghard.typeArg
  dsimp only
  split
  · exact h.retype _
  split
  · exact h.retype _
  split
  · exact h.retype _
  · exact h.stringArg

end Token.Retyped

namespace Burghard

theorem retyped_arg {a : Arg} {token : Token} (h : ∀ t ∈ a.tokens, t.Retyped t)
    (htoken : a.token.Retyped token) :
    List.Forall₂ Token.Retyped a.tokens { a with token : Arg }.tokens :=
  List.rel_append (List.forall₂_same.2 (Arg.forall_tokens_iff.1 h).1) (.cons htoken .nil)

theorem typeArgs_retyped (kinds : List ArgKind) {args : List Arg}
    (h : ∀ a ∈ args, ∀ t ∈ a.tokens, t.Retyped t) : List.Forall₂ Token.Retyped
      (args.flatMap Arg.tokens) ((typeArgs kinds args).1.flatMap Arg.tokens) := by
  induction kinds generalizing args with
  | nil => exact List.forall₂_same.2 (List.forall_mem_flatMap.2 h)
  | cons kind kinds ih =>
    cases args with
    | nil => exact .nil
    | cons a args =>
      obtain ⟨ha, hargs⟩ := List.forall_mem_cons.1 h
      have htoken := (Arg.forall_tokens_iff.1 ha).2
      rw [typeArgs, List.flatMap_cons]
      by_cases hword : kind = .word
      · simp only [hword, if_true, List.flatMap_cons]
        exact List.rel_append (retyped_arg ha htoken) (ih hargs)
      · simp only [hword, if_false, List.flatMap_cons]
        exact List.rel_append (retyped_arg ha (htoken.typeArg kind)) (ih hargs)

theorem stringArgs_retyped {args : List Arg} (h : ∀ a ∈ args, ∀ t ∈ a.tokens, t.Retyped t) :
    List.Forall₂ Token.Retyped (args.flatMap Arg.tokens)
      ((args.map fun a => { a with token := (typeArg .string a.token).1 }).flatMap
        Arg.tokens) := by
  induction args with
  | nil => exact .nil
  | cons a args ih =>
    obtain ⟨ha, hargs⟩ := List.forall_mem_cons.1 h
    have htoken := (Arg.forall_tokens_iff.1 ha).2
    rw [List.map_cons, List.flatMap_cons, List.flatMap_cons]
    exact List.rel_append (retyped_arg ha (htoken.typeArg .string)) (ih hargs)

/-- **Typing an instruction changes what its tokens carry** and nothing else. -/
theorem typeInst_retyped {i : Inst} (h : ∀ t ∈ i.tokens, t.Retyped t) :
    List.Forall₂ Token.Retyped i.tokens (typeInst i).tokens := by
  obtain ⟨hbefore, hhead, hargs, hafter⟩ := Inst.forall_tokens_iff.1 h
  unfold typeInst
  generalize mnemonics.lookup? i.head.unwrap.text = overloads
  let mnemonic : Inst := { i with head := i.head.retype (.mnemonic .invalid) }
  obtain ⟨hb, ha, haf, opcode, hh⟩ := mnemonic.resolve_frame overloads
  have hhead' : i.head.Retyped (mnemonic.resolve overloads).head := by
    obtain hh | hh := hh
    · rw [hh]
      exact (hhead.retype _).setOpcode opcode
    · rw [hh]
      exact hhead.retype _
  have htokens : ∀ (args : List Arg) (validTypes : Bool),
      List.Forall₂ Token.Retyped (i.args.flatMap Arg.tokens) (args.flatMap Arg.tokens) →
      List.Forall₂ Token.Retyped i.tokens
        { mnemonic.resolve overloads with args, validTypes : Inst }.tokens := by
    intro args validTypes hargs
    rw [Inst.tokens, Inst.tokens, hb, haf]
    exact List.rel_append (List.rel_append (List.rel_append (List.forall₂_same.2 hbefore)
      (.cons hhead' .nil)) hargs) (List.forall₂_same.2 hafter)
  dsimp only
  cases overloads with
  | none => exact htokens _ _ (stringArgs_retyped hargs)
  | some signatures =>
    dsimp only
    split
    · refine htokens (mnemonic.resolve (some signatures)).args _ ?_
      rw [ha]
      exact List.forall₂_same.2 (List.forall_mem_flatMap.2 hargs)
    · exact htokens _ _ (typeArgs_retyped _ hargs)

end Burghard

end WhitespaceAsm

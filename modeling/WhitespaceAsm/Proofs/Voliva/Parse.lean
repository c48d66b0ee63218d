import WhitespaceAsm.Proofs.MnemonicTable
import WhitespaceAsm.Proofs.Tree.Reading
import WhitespaceAsm.Proofs.Voliva.Lex
import WhitespaceAsm.Voliva.Parse

/-!
# The statements of voliva programs

* `lineRules_reads_lex`: the tokens of every program can be read as lines;
* `typeInst_sameSpelling`, **`typeInst_resolvedBy`**: typing the arguments of an instruction;
* **`statements_reading`**: every program is read.
-/

namespace WhitespaceAsm.Voliva

/-! ## Lines -/

theorem isWord_iff (t : Token) : isWord t ↔ t.kind ∈ wordKinds := by
  unfold isWord
  cases t.kind <;> simp [wordKinds]

theorem eq_lf_of_next_lineComment {b c : UInt8} {rest more : Bytes}
    (e : b :: rest = (next b rest).text ++ c :: more) (h : (next b rest).kind = .lineComment) :
    c = Ascii.lf := by
  revert e h
  refine next_cases (motive := fun t => b :: rest = t.text ++ c :: more → t.kind = .lineComment →
    c = Ascii.lf) b rest ?_ ?_ ?_ ?_
  · intro text p _ hp _ h
    rw [show p.kind = .lineComment from h] at hp
    simp [wordKinds] at hp
  · intro e _
    exact LineComment.lf_of_text_read e
  · intro _ _ h; cases h
  · intro _ _ _ h; cases h

theorem lineRules_reads_lex (src : Bytes) : lineRules.Reads (lex src) where
  classes := by
    refine forall_mem_tokenize next_readsStart (fun b rest => ?_) src
    refine next_cases (motive := fun t => lineRules.separates t ∨ lineRules.isWord t ∨
      t.kind = .lineComment ∨ lineRules.endsLine t) b rest ?_ ?_ ?_ ?_
    · exact fun _ _ _ hp => .inr (.inl ((isWord_iff _).2 hp))
    · exact .inr (.inr (.inl rfl))
    · exact fun _ => .inr (.inr (.inr rfl))
    · exact fun _ _ => .inl rfl
  chain := by
    refine isChain_tokenize next_readsStart (fun b rest c more e h => ?_) src
    rw [eq_lf_of_next_lineComment e h]
    rfl

/-! ## Typing -/

theorem spelling_typeWord (kind : ArgKind) (t : Token) :
    (typeWord kind t).spelling = t.spelling := by
  unfold typeWord
  split
  · split
    · exact Token.spelling_plain _ (by simp [Payload.kind]) (by simp [Payload.kind])
    · split
      · exact Token.spelling_plain _ (by simp [Payload.kind]) (by simp [Payload.kind])
      · rfl
  · rfl

theorem typeArgs_spec (kinds : List ArgKind) (args : List Arg) :
    (typeArgs kinds args).length = args.length ∧
      ((typeArgs kinds args).flatMap Arg.tokens).map Token.spelling
        = (args.flatMap Arg.tokens).map Token.spelling := by
  fun_induction typeArgs kinds args with
  | case1 kind kinds a args ih =>
    refine ⟨by rw [List.length_cons, List.length_cons, ih.1], ?_⟩
    simp only [List.flatMap_cons, List.map_append, ih.2, Arg.tokens, List.map_cons, List.map_nil,
      spelling_typeWord]
  | case2 => exact ⟨rfl, rfl⟩

theorem typeInst_typedFrom {i : Inst} {text : Bytes} {errors : FlagSet WordError}
    (h : i.head = .plain text (.word errors)) :
    (typeInst i).TypedFrom { i with head := .plain text (.mnemonic .invalid) }
      (mnemonics.lookup? text) := by
  unfold typeInst
  rw [h]
  dsimp only
  generalize mnemonics.lookup? text = overloads
  cases hselect : Signature.select? (overloads.getD []) i.args.length with
  | none => exact Inst.typedFrom_resolve_of_select_none hselect
  | some s =>
    obtain ⟨hlength, hspelling⟩ := typeArgs_spec s.args i.args
    refine Inst.typedFrom_resolve_of_select_some (s := s) ?_ _ _ hlength hspelling ?_
    · exact hselect
    · rfl

theorem lookup?_ne_nil (text : Bytes) : mnemonics.lookup? text ≠ some [] := by
  intro hempty
  obtain ⟨e, he, -, hnil⟩ := MnemonicTable.lookup?_ofList hempty
  clear hempty
  revert e
  decide

theorem typeInst_of_not_word {i : Inst}
    (h : ∀ text errors, i.head ≠ .plain text (.word errors)) : typeInst i = i := by
  unfold typeInst
  split
  · next text errors hhead => exact absurd hhead (h text errors)
  · rfl

theorem typeInst_sameSpelling (i : Inst) : SameSpelling (typeInst i).tokens i.tokens := by
  by_cases h : ∃ text errors, i.head = .plain text (.word errors)
  · obtain ⟨text, errors, h⟩ := h
    refine (typeInst_typedFrom h).sameSpelling.trans (Inst.sameSpelling rfl ?_ rfl rfl)
    rw [h]
    exact Token.spelling_plain text (by simp [Payload.kind]) (by simp [Payload.kind])
  · rw [typeInst_of_not_word fun text errors hhead => h ⟨text, errors, hhead⟩]
    exact .refl _

theorem typeInst_resolvedBy {i : Inst} (hword : isWord i.head)
    (h : (typeInst i).head.unwrap.kind = .mnemonic) :
    (typeInst i).ResolvedBy (mnemonics.lookup? (typeInst i).head.unwrap.text) := by
  by_cases hhead : ∃ text errors, i.head = .plain text (.word errors)
  · obtain ⟨text, errors, hhead⟩ := hhead
    have htyped := typeInst_typedFrom hhead
    rw [htyped.unwrap_text]
    exact htyped.resolvedBy rfl (fun _ => rfl) (lookup?_ne_nil _)
  · -- a literal is no mnemonic
    rw [typeInst_of_not_word fun text errors heq => hhead ⟨text, errors, heq⟩] at h
    rw [isWord_iff] at hword
    cases hi : i.head with
    | plain text p =>
      rw [hi] at h hword
      have hkind : (Token.plain text p).kind = .mnemonic := h
      simp [hkind, wordKinds] at hword
    | quoted text inner quotes terminated => simp [hi, Token.kind, wordKinds] at hword
    | spliced text parts word => simp [hi, Token.kind, wordKinds] at hword

/-- **Every program is read**, and its statements stand for its tokens. -/
theorem statements_reading (src : Bytes) :
    ∃ ss, statements src = .ok ss ∧ Reading (lex src) mnemonics.lookup? (ss.map (·.2)) := by
  have hreads := lineRules_reads_lex src
  rw [← tokensOf_locate .byte {} (lex src)] at hreads ⊢
  have hfinish : lineRules.finish = typeInst := rfl
  refine LineRules.reading hreads ?_ ?_
  · intro i _ _
    rw [hfinish]
    exact typeInst_sameSpelling i
  · intro i hraw _
    rw [hfinish]
    exact typeInst_resolvedBy hraw.1

end WhitespaceAsm.Voliva

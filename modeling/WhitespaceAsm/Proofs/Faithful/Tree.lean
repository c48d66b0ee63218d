import WhitespaceAsm.Proofs.Faithful
import WhitespaceAsm.Proofs.Finish
import WhitespaceAsm.Proofs.Lexer
import WhitespaceAsm.Proofs.Program

/-!
# What the tokens of a tree carry gives their text back

Parsing puts words together, gives tokens other payloads and turns words in quotes into strings. A
token of a tree stands for its text like the tokens that it has been made from.

* **`tokens_faithful`**: the tokens of all lexers and trees.
-/

namespace WhitespaceAsm

theorem Token.Faithful.mnemonic (t : Token) (opcode : Opcode) (h : t.Faithful) :
    (t.retype (.mnemonic opcode)).Faithful := h.retype trivial

/-! ## Burghard -/

namespace Burghard

theorem joinWord_faithful {lhs : Token} (h : lhs.Faithful) (rhs : Token) :
    (joinWord lhs rhs).Faithful := by
  unfold joinWord
  split
  · exact .plain trivial
  · exact h

/-- **A word that has been put together** has the leaves of the words in their order. -/
theorem splice_faithful {lhs rhs : Token} {between : List Token} (hlhs : lhs.Faithful)
    (hbetween : ∀ t ∈ between, t.Faithful) (hrhs : rhs.Faithful) :
    (splice lhs between rhs).Faithful := by
  obtain ⟨word, hword, heq⟩ : ∃ word : Token, word.Faithful ∧ splice lhs between rhs
      = .spliced (lhs.text ++ texts between ++ rhs.text) (lhs.leaves ++ between ++ [rhs])
        (some (joinWord word rhs)) := by
    cases hlhs with
    | plain h => exact ⟨_, .plain h, rfl⟩
    | quoted htext h => exact ⟨_, .quoted htext h, rfl⟩
    | spliced htext hparts h => exact ⟨_, h, rfl⟩
  rw [heq]
  refine .spliced ?_ ?_ (joinWord_faithful hword rhs)
  · rw [← hlhs.texts_leaves]
    simp
  · refine List.forall_mem_append.2 ⟨List.forall_mem_append.2 ⟨hlhs.forall_leaves, hbetween⟩, ?_⟩
    simpa using hrhs

/-- **A string keeps the quotes of the word** that it is made from, and bare words have none. -/
theorem stringArg_faithful {t : Token} (h : t.Faithful) : (stringArg t).Faithful := by
  cases h with
  | @quoted text inner terminated htext h =>
    refine .plain ?_
    have hflag : (decide (StringError.unterminated ∉ flagIf (¬terminated = true)
        StringError.unterminated)) = terminated := by
      cases terminated <;> simp [mem_flagIf_iff]
    change text = betweenQuotes Ascii.doubleQuote inner.text _
    rw [htext, hflag]
  | plain h => exact .plain rfl
  | spliced htext hparts h => exact .spliced htext hparts (h.retype rfl)

theorem typeArg_faithful (kind : ArgKind) {t : Token} (h : t.Faithful) :
    (typeArg kind t).1.Faithful := by
  unfold typeArg
  dsimp only
  split
  · exact h.retype rfl
  split
  · exact h.retype (List.take_append_drop 1 _).symm
  split
  · exact h.retype (Numeral.literal_parse _ _).symm
  · exact stringArg_faithful h

theorem kept_faithful : Kept Token.Faithful where
  splice := splice_faithful
  typeArg := typeArg_faithful
  mnemonic := Token.Faithful.mnemonic

end Burghard

/-! ## Palaiologos -/

namespace Palaiologos

theorem markComma_faithful (error : ArgSepError) {t : Token} (h : t.Faithful) :
    (markComma error t).Faithful := by
  unfold markComma
  split
  · exact .plain trivial
  · exact h

theorem markStray_faithful {ts : List Token} (h : ∀ t ∈ ts, t.Faithful) :
    ∀ t ∈ markStray ts, t.Faithful := by
  intro t ht
  obtain ⟨u, hu, rfl⟩ := List.mem_map.1 ht
  exact markComma_faithful _ (h u hu)

theorem markRepeated_faithful (seen : Bool) {ts : List Token} (h : ∀ t ∈ ts, t.Faithful) :
    ∀ t ∈ markRepeated seen ts, t.Faithful := by
  induction ts generalizing seen with
  | nil => exact h
  | cons t ts ih =>
    obtain ⟨ht, hts⟩ := List.forall_mem_cons.1 h
    rw [markRepeated]
    split
    · refine List.forall_mem_cons.2 ⟨?_, ih true hts⟩
      split
      · exact markComma_faithful _ ht
      · exact ht
    · exact List.forall_mem_cons.2 ⟨ht, ih seen hts⟩

theorem markCommas_faithful {i : Inst} (h : ∀ t ∈ i.tokens, t.Faithful) :
    ∀ t ∈ (markCommas i).tokens, t.Faithful := by
  obtain ⟨hbefore, hhead, hargs, hafter⟩ := Inst.forall_tokens_iff.1 h
  refine Inst.forall_tokens_iff.2 ⟨hbefore, hhead, ?_, markStray_faithful hafter⟩
  rw [markCommas]
  dsimp only
  cases hi : i.args with
  | nil => simp
  | cons first others =>
    rw [hi] at hargs
    obtain ⟨hfirst, hothers⟩ := List.forall_mem_cons.1 hargs
    obtain ⟨hsep, htoken⟩ := Arg.forall_tokens_iff.1 hfirst
    refine List.forall_mem_cons.2 ⟨Arg.forall_tokens_iff.2 ⟨markStray_faithful hsep, htoken⟩, ?_⟩
    intro a ha
    obtain ⟨b, hb, rfl⟩ := List.mem_map.1 ha
    obtain ⟨hsep, htoken⟩ := Arg.forall_tokens_iff.1 (hothers b hb)
    exact Arg.forall_tokens_iff.2 ⟨markRepeated_faithful false hsep, htoken⟩

theorem resolveInst_faithful {i : Inst} (h : ∀ t ∈ i.tokens, t.Faithful) :
    ∀ t ∈ (resolveInst i).tokens, t.Faithful := by
  have hresolved :=
    (Inst.madeFrom_resolve Token.Faithful.mnemonic i (mnemonics.get? i.head.text)).forall_tokens h
  unfold resolveInst
  dsimp only
  split
  · split
    · exact Inst.forall_tokens_iff.2 (Inst.forall_tokens_iff.1 hresolved)
    · exact hresolved
  · exact h

theorem finish_faithful (raw : Statement) (h : ∀ t ∈ raw.tokens, t.Faithful) :
    ∀ t ∈ (finish raw).tokens, t.Faithful := by
  cases raw with
  | emptyLine ts => exact markStray_faithful h
  | inst i =>
    obtain ⟨hbefore, hrest⟩ := Inst.forall_tokens_iff.1 h
    have hmarked : ∀ t ∈ { i with before := markStray i.before : Inst }.tokens, t.Faithful :=
      Inst.forall_tokens_iff.2 ⟨markStray_faithful hbefore, hrest⟩
    change ∀ t ∈ (finishInst i).tokens, t.Faithful
    unfold finishInst
    dsimp only
    split
    · exact hmarked
    · exact resolveInst_faithful (markCommas_faithful hmarked)

end Palaiologos

/-! ## Voliva -/

namespace Voliva

theorem typeWord_faithful (kind : ArgKind) {t : Token} (h : t.Faithful) :
    (typeWord kind t).Faithful := by
  unfold typeWord
  split
  · split
    · exact .plain rfl
    split
    · exact .plain (List.take_append_drop 1 _).symm
    · exact h
  · exact h

theorem kept_faithful : Kept Token.Faithful where
  typeWord := typeWord_faithful
  mnemonic := Token.Faithful.mnemonic

end Voliva

/-! ## Trees -/

theorem LineRules.finishStatement_faithful {r : LineRules}
    (h : ∀ i : Inst, (r.finish i).MadeFrom Token.Faithful i) (raw : Statement)
    (hraw : ∀ t ∈ raw.tokens, t.Faithful) : ∀ t ∈ (r.finishStatement raw).tokens, t.Faithful := by
  cases raw with
  | inst i => exact (h i).forall_tokens hraw
  | emptyLine ts => exact hraw

namespace Dialect

theorem statements_faithful {d : Dialect} {src : Bytes} {ss : List (Pos × Statement)}
    (h : d.statements src = .ok ss) : ∀ s ∈ ss.map (·.2), ∀ t ∈ s.tokens, t.Faithful := by
  have hlex : ∀ u, ∀ t ∈ tokensOf (locate u {} (d.lex src)), t.Faithful := fun u t ht => by
    rw [tokensOf_locate] at ht
    exact Lexicon.faithful_of_mem_lex ht
  cases d with
  | burghard =>
    refine StatementReader.forall_tokens_readAll Burghard.lineRules.keeps ?_ (hlex .codePoint)
      Token.faithful_endOfInput
      (LineRules.finishStatement_faithful (Burghard.finish_madeFrom Burghard.kept_faithful)) h
    rw [tokensOf_locate]
    exact Burghard.lineRules_reads_lex src
  | palaiologos =>
    exact StatementReader.forall_tokens_readAll Palaiologos.reader_keeps trivial (hlex .byte)
      Token.faithful_endOfInput Palaiologos.finish_faithful h
  | voliva =>
    refine StatementReader.forall_tokens_readAll Voliva.lineRules.keeps ?_ (hlex .byte)
      Token.faithful_endOfInput
      (LineRules.finishStatement_faithful (Voliva.typeInst_madeFrom Voliva.kept_faithful)) h
    rw [tokensOf_locate]
    exact Voliva.lineRules_reads_lex src

theorem parse_faithful {d : Dialect} {src : Bytes} {tree : Node} (h : d.parse src = .ok tree) :
    ∀ t ∈ tree.tokens, t.Faithful := by
  obtain ⟨ss, hss, -⟩ := d.statements_reading src
  rw [parse, hss] at h
  cases h
  intro t ht
  rw [Node.tokens, statements_assemble] at ht
  obtain ⟨s, hs, ht⟩ := List.mem_flatMap.1 ht
  exact statements_faithful hss s hs t ht

end Dialect

/-- **What tokens carry gives their texts back**, for the tokens that each lexer returns and for the
tokens of every tree, down to those that are wrapped in others. -/
theorem tokens_faithful (src : Bytes) :
    (∀ (l : Lexicon) n, ((l.lexer src).token n).Faithful) ∧
    ∀ d : Dialect, ∃ tree, d.parse src = .ok tree ∧ ∀ t ∈ tree.tokens, t.Faithful := by
  constructor
  · intro l n
    obtain hn | hn := Nat.lt_or_ge n (l.lex src).length
    · rw [Lexicon.token_lexer_of_lt l src hn]
      exact Lexicon.faithful_of_mem_lex (List.getElem_mem hn)
    · rw [Lexicon.token_lexer_of_le l src hn]
      exact Token.faithful_endOfInput
  · intro d
    obtain ⟨tree, hparse, -⟩ := d.parse_source src
    exact ⟨tree, hparse, Dialect.parse_faithful hparse⟩

end WhitespaceAsm

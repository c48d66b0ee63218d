import Mathlib.Data.List.Infix
import WhitespaceAsm.Proofs.Program
import WhitespaceAsm.Proofs.Tree.Lines

/-!
# The lines of a program

* `Burghard.kept_inLine`, `Voliva.kept_inLine`: words stay inside their line when they are finished;
* **`Dialect.endsLine`**: the tokens that end lines;
* **`Dialect.parse_lines`**: the statements of a tree are the lines of the program.
-/

namespace WhitespaceAsm

/-! ## Burghard -/

namespace Burghard

theorem lineRules_apart : lineRules.Apart where
  inside t h := by
    have hkind : t.kind ∈ [.space, .blockComment, .word, .quoted, .lineComment] := by
      rcases h with h | h | h
      · rcases Bool.or_eq_true_iff.1 h with h | h <;> simp [beq_iff_eq.1 h]
      · rcases Bool.or_eq_true_iff.1 h with h | h <;> simp [beq_iff_eq.1 h]
      · simp [h]
    revert hkind
    cases t.kind <;> decide
  ends t h := by
    rcases lineTerm_or_eq_of_endsLine h with hkind | ⟨text, length, rfl⟩
    · exact .inl hkind
    · exact .inr rfl
  lineTerm t h := by
    cases t with
    | plain text p =>
      cases p with
      | lineTerm style => rfl
      | _ => cases h
    | quoted => cases h
    | spliced => cases h

theorem next_inLine (b : UInt8) (rest : Bytes) :
    (next b rest).kind = .lineTerm ∨ (next b rest).InLine := by
  refine next_cases (motive := fun t => t.kind = .lineTerm ∨ t.InLine) b rest ?_ ?_ ?_ ?_ ?_ ?_ ?_
  · exact fun _ _ _ => .inr (.plain (show TokenKind.lineComment ∉ closeKinds by decide))
  · exact fun _ => .inr (.plain (show TokenKind.blockComment ∉ closeKinds by decide))
  · exact fun _ => .inr (.plain (by decide))
  · exact fun _ => .inr (.plain (by decide))
  · exact fun _ => .inl rfl
  · exact fun _ => .inr (.quoted (.plain (by decide)))
  · exact fun _ => .inr (.plain (by decide))

theorem lineRules_inLines_lex (src : Bytes) : lineRules.InLines (lex src) where
  toReads := lineRules_reads_lex src
  inside := forall_mem_lex (fun b rest => mem_closeKinds_or_inLine (next_inLine b rest))
    (fun _ _ _ => .inl (show TokenKind.error ∈ closeKinds by decide)) src
  input t ht := (isRaw_of_mem_lex ht).kind_ne_endOfInput
  error t ht := by
    have hstart : t ∈ tokenize next (src.take (Utf8.validLength src)) := by
      rw [lex, invalidTail] at ht
      by_cases hrest : src.drop (Utf8.validLength src) = []
      · rw [if_pos hrest, List.append_nil] at ht
        exact List.mem_of_mem_dropLast ht
      · rwa [if_neg hrest, List.dropLast_concat] at ht
    exact forall_mem_tokenize next_readsStart (P := fun t => t.kind ≠ .error) kind_next_ne_error _ t
      hstart

/-! ### Finishing -/

theorem inLine_splice {lhs rhs : Token} {between : List Token} (hlhs : lhs.InLine)
    (hbetween : ∀ t ∈ between, t.InLine) (hrhs : rhs.InLine) : (splice lhs between rhs).InLine := by
  have hjoin : ∀ {word : Token}, word.InLine → (joinWord word rhs).InLine := by
    intro word h
    unfold joinWord
    split
    · exact .plain (show TokenKind.word ∉ closeKinds by decide)
    · exact h
  have hparts : ∀ {parts : List Token}, (∀ t ∈ parts, t.InLine) →
      ∀ t ∈ parts ++ between ++ [rhs], t.InLine := by
    intro parts h
    simp only [List.forall_mem_append, List.forall_mem_singleton]
    exact ⟨⟨h, hbetween⟩, hrhs⟩
  have hword : ∀ t ∈ [lhs], t.InLine := List.forall_mem_singleton.2 hlhs
  cases hlhs with
  | plain h => exact .spliced (hparts hword) (hjoin (.plain h))
  | quoted h => exact .spliced (hparts hword) (hjoin (.quoted h))
  | spliced h hjoined => exact .spliced (hparts h) (hjoin hjoined)

theorem inLine_typeArg (kind : ArgKind) {t : Token} (h : t.InLine) : (typeArg kind t).1.InLine := by
  unfold typeArg
  dsimp only
  split
  · exact h.retype (show TokenKind.label ∉ closeKinds by decide)
  split
  · exact h.retype (show TokenKind.variable ∉ closeKinds by decide)
  split
  · exact h.retype (show TokenKind.integer ∉ closeKinds by decide)
  · have hstring : TokenKind.string ∉ closeKinds := by decide
    unfold stringArg
    split
    · exact .plain hstring
    · exact h.retype hstring

theorem kept_inLine : Kept Token.InLine where
  splice := inLine_splice
  typeArg := inLine_typeArg
  mnemonic := Token.InLine.mnemonic

end Burghard

/-! ## Voliva -/

namespace Voliva

theorem lineRules_apart : lineRules.Apart where
  inside t h := by
    have hkind : t.kind ∈ .space :: .lineComment :: wordKinds := by
      rcases h with h | h | h
      · simp [beq_iff_eq.1 h]
      · exact List.mem_cons_of_mem _ (List.mem_cons_of_mem _ ((isWord_iff t).1 h))
      · simp [h]
    revert hkind
    cases t.kind <;> decide
  ends t h := .inl (beq_iff_eq.1 h)
  lineTerm t h := beq_iff_eq.2 h

theorem next_inLine (b : UInt8) (rest : Bytes) :
    (next b rest).kind = .lineTerm ∨ (next b rest).InLine := by
  refine next_cases (motive := fun t => t.kind = .lineTerm ∨ t.InLine) b rest ?_ ?_ ?_ ?_
  · intro text p _ hp
    have hword : ∀ k ∈ wordKinds, k ∉ closeKinds := by decide
    exact .inr (.plain (hword p.kind hp))
  · exact .inr (.plain (show TokenKind.lineComment ∉ closeKinds by decide))
  · exact fun _ => .inl rfl
  · exact fun _ _ => .inr (.plain (show TokenKind.space ∉ closeKinds by decide))

theorem inLine_of_mem_lex {src : Bytes} {t : Token} (h : t ∈ lex src) :
    t.kind = .lineTerm ∨ t.InLine :=
  forall_mem_tokenize next_readsStart (P := fun t => t.kind = .lineTerm ∨ t.InLine) next_inLine src
    t h

theorem lineRules_inLines_lex (src : Bytes) : lineRules.InLines (lex src) where
  toReads := lineRules_reads_lex src
  inside _ ht := mem_closeKinds_or_inLine (inLine_of_mem_lex ht)
  input _ ht := (Lexicon.isRaw_of_mem_lex (l := .voliva) ht).kind_ne_endOfInput
  error _ ht := kind_ne_error_of_inLine (inLine_of_mem_lex (List.mem_of_mem_dropLast ht))

theorem inLine_typeWord (kind : ArgKind) {t : Token} (h : t.InLine) : (typeWord kind t).InLine := by
  unfold typeWord
  split
  · split
    · exact .plain (show TokenKind.label ∉ closeKinds by decide)
    split
    · exact .plain (show TokenKind.variable ∉ closeKinds by decide)
    · exact h
  · exact h

theorem kept_inLine : Kept Token.InLine where
  typeWord := inLine_typeWord
  mnemonic := Token.InLine.mnemonic

end Voliva

/-! ## Trees -/

namespace Dialect

/-- **A token that ends a line**: a line terminator, the end of the input, or in Burghard an
ill-formed rest. -/
def endsLine (d : Dialect) (t : Token) : Prop :=
  t.kind = .lineTerm ∨ t.kind = .endOfInput ∨
    d = .burghard ∧ ∃ text length, t = .plain text (.error .invalidUtf8 length)

theorem statements_lines {d : Dialect} (hd : d ≠ .palaiologos) (src : Bytes) :
    ∃ ss, d.statements src = .ok ss ∧ (∀ s ∈ ss.map (·.2), s.IsLine d.endsLine) ∧
      ss.length = lineCount (d.lex src) := by
  cases d with
  | palaiologos => exact absurd rfl hd
  | burghard =>
    refine LineRules.readAll_lines Burghard.lineRules_apart
      (Burghard.finish_madeFrom Burghard.kept_inLine) ?_ (Burghard.lineRules_inLines_lex src) _
    rintro t (hends | rfl)
    · rcases Burghard.lineTerm_or_eq_of_endsLine hends with hkind | hinvalid
      · exact .inl hkind
      · exact .inr (.inr ⟨rfl, hinvalid⟩)
    · exact .inr (.inl rfl)
  | voliva =>
    refine LineRules.readAll_lines Voliva.lineRules_apart
      (Voliva.typeInst_madeFrom Voliva.kept_inLine) ?_ (Voliva.lineRules_inLines_lex src) _
    rintro t (hends | rfl)
    · exact .inl (beq_iff_eq.1 hends)
    · exact .inr (.inl rfl)

/-- **The statements of a tree are the lines of the program**, in whichever blocks they are. -/
theorem parse_lines {d : Dialect} (hd : d ≠ .palaiologos) (src : Bytes) :
    ∃ tree, d.parse src = .ok tree ∧ (∀ s ∈ tree.statements, s.IsLine d.endsLine) ∧
      tree.statements.length = lineCount (d.lex src) := by
  obtain ⟨ss, hss, hlines, hcount⟩ := statements_lines hd src
  refine ⟨d.assemble (ss.map (·.2)), ?_, ?_, ?_⟩
  · rw [parse, hss]
    rfl
  · rwa [statements_assemble]
  · rw [statements_assemble, List.length_map, hcount]

/-- An ill-formed rest behind a line feed makes a line of its own. -/
theorem parse_lines_invalidTail : burghard ≠ .palaiologos ∧
    ∃ tree, burghard.parse [Ascii.lf, 0xFF] = .ok tree ∧
      (∀ s ∈ tree.statements, s.IsLine burghard.endsLine) ∧ tree.statements.length = 2 := by
  have hd : burghard ≠ .palaiologos := by decide
  obtain ⟨tree, hparse, hlines, hcount⟩ := parse_lines hd [Ascii.lf, 0xFF]
  have hlex : lineCount (burghard.lex [Ascii.lf, 0xFF]) = 2 := by cbv
  exact ⟨hd, tree, hparse, hlines, hcount.trans hlex⟩

end Dialect

end WhitespaceAsm

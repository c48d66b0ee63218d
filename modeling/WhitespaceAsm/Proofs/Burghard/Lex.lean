import WhitespaceAsm.Burghard.Lex
import WhitespaceAsm.Proofs.Comment
import WhitespaceAsm.Proofs.Lexing
import WhitespaceAsm.Proofs.Utf8

/-!
# The tokens of Burghard programs

* **`next_cases`**: the classes of tokens, each with what stands at the start of the text;
* `texts_lex`, **`forall_mem_lex`**, **`isChain_lex`**, `text_ne_nil_of_mem_lex`,
  `isRaw_of_mem_lex`: the tokens of a program;
* **`lex_append_lf`**: the tokens of a well-formed first line and of the rest.
-/

namespace WhitespaceAsm.Burghard

/-! ## Classes of tokens -/

/-- **The classes of tokens.** -/
theorem next_cases {motive : Token → Prop} (b : UInt8) (rest : Bytes)
    (lineComment : ∀ n, n ≠ 0 → n ≤ rest.length + 1 → motive (Token.lineComment n (b :: rest)))
    (blockComment : atBlockOpen (b :: rest) → motive (Token.blockComment commentStyle (b :: rest)))
    (close : blockClose <+: b :: rest → motive strayClose)
    (space : isSpace b → motive (.plain (b :: rest.takeWhile isSpace) .space))
    (lineFeed : b = Ascii.lf → motive Token.lineFeed)
    (quoted : b = Ascii.doubleQuote → motive (readQuoted rest))
    (word : b ≠ Ascii.lf → motive (readWord b rest)) : motive (next b rest) := by
  unfold next
  split
  · next comment hcomment =>
    unfold readComment? at hcomment
    split at hcomment
    · cases hcomment
      exact lineComment 1 (by decide) (by omega)
    · split at hcomment
      · next hdashes =>
        cases hcomment
        exact lineComment 2 (by decide) (List.isPrefixOf_iff_prefix.1 hdashes).length_le
      · split at hcomment
        · next hopen => cases hcomment; exact blockComment hopen
        · split at hcomment
          · next hclose =>
            cases hcomment
            exact close (List.isPrefixOf_iff_prefix.1 hclose)
          · cases hcomment
  · split
    · next hspace => exact space hspace
    · split
      · next hlf => subst hlf; exact lineFeed rfl
      · next hlf =>
        split
        · next hquote => exact quoted hquote
        · exact word hlf

theorem next_lf (rest : Bytes) : next Ascii.lf rest = Token.lineFeed := by
  rfl

/-! ## All of the text -/

theorem text_readQuoted_isPrefix (rest : Bytes) :
    (readQuoted rest).text <+: Ascii.doubleQuote :: rest := by
  let word := rest.takeWhile fun b => b != Ascii.doubleQuote && b != Ascii.lf
  have hword : word <+: rest := List.takeWhile_prefix _
  have hquote : (if (rest.drop word.length).head? = some Ascii.doubleQuote
      then [Ascii.doubleQuote] else []) <+: rest.drop word.length := by
    cases rest.drop word.length with
    | nil => exact List.nil_prefix
    | cons c more =>
      by_cases hc : c = Ascii.doubleQuote
      · subst hc; simp
      · simp [hc]
  have h := (List.prefix_cons_inj Ascii.doubleQuote).2 (append_isPrefix hword hquote)
  simpa [readQuoted, Token.text, word] using h

theorem next_readsStart : ReadsStart next := by
  intro b rest
  refine next_cases (motive := fun t => t.Starts (b :: rest)) b rest ?_ ?_ ?_ ?_ ?_ ?_ ?_
  · exact fun n hn _ => Token.starts_lineComment hn b rest
  · exact fun _ => Token.starts_blockComment (by decide) b rest
  · exact fun h => ⟨by decide, h⟩
  · exact fun _ => Token.starts_plain b _ ( List.takeWhile_prefix _)
  · rintro rfl; exact Token.starts_byte _ rest _
  · rintro rfl; exact ⟨List.cons_ne_nil _ _, text_readQuoted_isPrefix rest⟩
  · exact fun _ => Token.starts_plain b _ (takeUntil_isPrefix _ _)

theorem next_isRaw (b : UInt8) (rest : Bytes) : (next b rest).IsRaw := by
  refine next_cases b rest ?_ ?_ ?_ ?_ ?_ ?_ ?_
  · exact fun _ _ _ => Token.isRaw_plain _ (by simp [Payload.kind])
  · exact fun _ => Token.isRaw_plain _ (by simp [Payload.kind])
  · exact fun _ => Token.isRaw_plain _ (by simp [Payload.kind])
  · exact fun _ => Token.isRaw_plain _ (by simp [Payload.kind])
  · exact fun _ => Token.isRaw_plain _ (by simp [Payload.kind])
  · exact fun _ => ⟨by simp [readQuoted, Token.kind], by simp [readQuoted, Token.kind]⟩
  · exact fun _ => Token.isRaw_plain _ (by simp [Payload.kind])

theorem kind_next_ne_error (b : UInt8) (rest : Bytes) : (next b rest).kind ≠ .error := by
  refine next_cases (motive := fun t => t.kind ≠ .error) b rest ?_ ?_ ?_ ?_ ?_ ?_ ?_
  all_goals intros; exact TokenKind.noConfusion

theorem texts_invalidTail (rest : Bytes) : texts (invalidTail rest) = rest := by
  unfold invalidTail
  split
  · next h => rw [h, texts_nil]
  · simp [Token.text]

theorem texts_lex (src : Bytes) : texts (lex src) = src := by
  rw [lex, texts_append, texts_tokenize next_readsStart, texts_invalidTail, List.take_append_drop]

theorem mem_invalidTail {rest : Bytes} {t : Token} (h : t ∈ invalidTail rest) :
    rest ≠ [] ∧ t = .plain rest (.error .invalidUtf8 (Utf8.decode rest).length) := by
  unfold invalidTail at h
  split at h
  · cases h
  · next hne => exact ⟨hne, List.mem_singleton.1 h⟩

/-- **What holds of every token of the rule** and of an ill-formed rest holds of all tokens of a
program. -/
theorem forall_mem_lex {P : Token → Prop} (hnext : ∀ b rest, P (next b rest))
    (htail : ∀ rest length, rest ≠ [] → P (.plain rest (.error .invalidUtf8 length)))
    (src : Bytes) : ∀ t ∈ lex src, P t := by
  rw [lex, List.forall_mem_append]
  refine ⟨forall_mem_tokenize next_readsStart hnext _, fun t ht => ?_⟩
  obtain ⟨hne, rfl⟩ := mem_invalidTail ht
  exact htail _ _ hne

/-- **What holds of a token of the rule and the next one**, and of any token and an ill-formed rest,
holds all along a program. -/
theorem isChain_lex {R : Token → Token → Prop}
    (hnext : ∀ b rest c more, b :: rest = (next b rest).text ++ c :: more →
      R (next b rest) (next c more))
    (htail : ∀ t rest length, R t (.plain rest (.error .invalidUtf8 length))) (src : Bytes) :
    (lex src).IsChain R := by
  rw [lex, List.isChain_append]
  refine ⟨isChain_tokenize next_readsStart hnext _, ?_, fun t _ u hu => ?_⟩
  · unfold invalidTail
    split
    · exact List.isChain_nil
    · exact List.isChain_singleton _
  · obtain ⟨-, rfl⟩ := mem_invalidTail (List.mem_of_mem_head? hu)
    exact htail t _ _

theorem text_ne_nil_of_mem_lex {src : Bytes} {t : Token} (h : t ∈ lex src) : t.text ≠ [] :=
  forall_mem_lex (P := fun t => t.text ≠ []) (fun b rest => (next_readsStart b rest).text_ne_nil)
    (fun _ _ hne => hne) src t h

theorem isRaw_of_mem_lex {src : Bytes} {t : Token} (h : t ∈ lex src) : t.IsRaw :=
  forall_mem_lex next_isRaw (fun _ _ _ => Token.isRaw_plain _ (by simp [Payload.kind])) src t h

/-! ## Line by line -/

theorem commentStyle_withinLine : commentStyle.WithinLine where
  opening := by decide
  closing := by decide
  lineMarkers := by decide
  exception := by decide

theorem atBlockOpen_append_lf (s t : Bytes) :
    atBlockOpen (s ++ Ascii.lf :: t) = atBlockOpen s := by
  rw [atBlockOpen, atBlockOpen, isPrefixOf_append_lf s t (by decide),
    isPrefixOf_append_lf s t (by decide)]

theorem atWordEnd_append_lf (b : UInt8) (s t : Bytes) :
    atWordEnd (b :: (s ++ Ascii.lf :: t)) = atWordEnd (b :: s) := by
  rw [atWordEnd, atWordEnd, ← List.cons_append, isPrefixOf_append_lf _ t (by decide),
    isPrefixOf_append_lf _ t (by decide), atBlockOpen_append_lf]

theorem readQuoted_append_lf (s t : Bytes) :
    readQuoted (s ++ Ascii.lf :: t) = readQuoted s := by
  have hword := takeWhile_append_lf s t
    (p := fun b => b != Ascii.doubleQuote && b != Ascii.lf) (by decide)
  have hhead : ((s ++ Ascii.lf :: t).drop
        (s.takeWhile fun b => b != Ascii.doubleQuote && b != Ascii.lf).length).head?
        = some Ascii.doubleQuote
      ↔ (s.drop (s.takeWhile fun b => b != Ascii.doubleQuote && b != Ascii.lf).length).head?
        = some Ascii.doubleQuote := by
    rw [drop_append_lf ( List.takeWhile_prefix _)]
    cases s.drop (s.takeWhile fun b => b != Ascii.doubleQuote && b != Ascii.lf).length with
    | nil => simp only [List.nil_append, List.head?_cons, List.head?_nil]; decide
    | cons c more => rfl
  unfold readQuoted
  simp only [hword, hhead]

theorem readComment?_append_lf {b : UInt8} {rest : Bytes}
    (h : ∀ comment, readComment? (b :: rest) = some comment → comment.isOpenComment = false)
    (t : Bytes) : readComment? (b :: rest ++ Ascii.lf :: t) = readComment? (b :: rest) := by
  unfold readComment? at h ⊢
  rw [isPrefixOf_append_lf _ t (by decide), atBlockOpen_append_lf,
    isPrefixOf_append_lf _ t (by decide)]
  by_cases hsemicolon : (b :: rest).head? = some Ascii.semicolon
  · rw [if_pos hsemicolon, Token.lineComment_append_lf (by simp)]
    exact if_pos hsemicolon
  rw [if_neg hsemicolon] at h ⊢
  refine (if_neg hsemicolon).trans ?_
  by_cases hdashes : dashes.isPrefixOf (b :: rest)
  · have hlen := (List.isPrefixOf_iff_prefix.1 hdashes).length_le
    rw [if_pos hdashes, if_pos hdashes, Token.lineComment_append_lf (n := 2) hlen]
  rw [if_neg hdashes] at h ⊢
  rw [if_neg hdashes]
  by_cases hopen : atBlockOpen (b :: rest)
  · rw [if_pos hopen] at h ⊢
    have hmarker : commentStyle.opening <+: b :: rest := by
      rw [atBlockOpen, Bool.and_eq_true] at hopen
      exact List.isPrefixOf_iff_prefix.1 hopen.1
    rw [if_pos hopen, Token.blockComment_append_lf commentStyle_withinLine hmarker (h _ rfl)]
  · rw [if_neg hopen, if_neg hopen]

theorem next_append_lf {b : UInt8} {rest : Bytes} (t : Bytes)
    (h : (next b rest).isOpenComment = false) :
    next b (rest ++ Ascii.lf :: t) = next b rest := by
  have hcomment : readComment? (b :: (rest ++ Ascii.lf :: t)) = readComment? (b :: rest) := by
    refine readComment?_append_lf (fun comment hc => ?_) t
    rwa [next, hc] at h
  have hspace := takeWhile_append_lf rest t (p := isSpace) (by decide)
  have hword := takeUntil_append_lf rest t atWordEnd (fun _ => rfl)
    (fun b s => atWordEnd_append_lf b s t)
  unfold next readWord
  rw [hcomment, hspace, readQuoted_append_lf, hword]

theorem lex_of_isValid {a : Bytes} (h : Utf8.isValid a) : lex a = tokenize next a := by
  rw [Utf8.isValid, beq_iff_eq] at h
  simp [lex, h, invalidTail]

/-- **The tokens of a first line and of the rest.** The line is well-formed, and no block comment
goes on after it. -/
theorem lex_append_lf {a : Bytes} (hvalid : Utf8.isValid a)
    (hclosed : ∀ t ∈ lex a, t.isOpenComment = false) (b : Bytes) :
    lex (a ++ Ascii.lf :: b) = lex a ++ Token.lineFeed :: lex b := by
  rw [lex_of_isValid hvalid] at hclosed ⊢
  have hlines := tokenize_append_lf next_readsStart (fun t => t.isOpenComment = false) next_lf
    (fun _ _ t h => next_append_lf t h) hclosed (b.take (Utf8.validLength b))
  have hlength : Utf8.validLength (a ++ Ascii.lf :: b)
      = a.length + (Utf8.validLength b + 1) := by
    rw [Utf8.validLength_append hvalid, Utf8.validLength_lf]
  rw [lex, hlength, List.take_length_add_append, List.drop_length_add_append,
    List.take_succ_cons, List.drop_succ_cons, hlines, List.append_assoc]
  rfl

end WhitespaceAsm.Burghard

import WhitespaceAsm.Proofs.Burghard.Lookahead
import WhitespaceAsm.Proofs.Lexer

/-!
# A block comment put into a word

A comment of letters, digits and spaces is put into a word of a program. The word becomes two words
with the comment between them, and no other token of the program changes.

* **`lex_commented`**: the tokens of the program.
-/

namespace WhitespaceAsm.Burghard

/-- A letter, a digit or a space. -/
def Plain (b : UInt8) : Prop := Ascii.isLetter b ∨ Ascii.isDigit b ∨ b = Ascii.space

/-- A comment around a text. -/
def commented (c : Bytes) : Bytes := blockOpen ++ c ++ blockClose

/-- A word without errors. -/
def word (text : Bytes) : Token := .plain text (.word ∅)

/-- The token of a comment around a text. -/
def comment (c : Bytes) : Token :=
  .plain (commented c) (.blockComment {
    opening := blockOpen
    body := c
    closing := blockClose
    nested := true })

namespace Plain

variable {b : UInt8} (h : Plain b)

include h

theorem ne_of_not {c : UInt8} (hc : ¬ Plain c) : b ≠ c := by
  rintro rfl
  exact hc h

theorem lt : b < 0x80 := by
  obtain h | h | rfl := h
  · exact Ascii.lt_of_isLetter h
  · exact Ascii.lt_of_isDigit h
  · decide

end Plain

theorem not_plain_minus : ¬ Plain Ascii.minus := by unfold Plain; decide

theorem not_plain_leftBrace : ¬ Plain Ascii.leftBrace := by unfold Plain; decide

theorem not_plain_semicolon : ¬ Plain Ascii.semicolon := by unfold Plain; decide

theorem scan_cons_of_ne {b : UInt8} (hminus : b ≠ Ascii.minus) (hbrace : b ≠ Ascii.leftBrace)
    (hsemicolon : b ≠ Ascii.semicolon) (depth : Nat) (t : Bytes) :
    commentStyle.scan depth (b :: t) = (commentStyle.scan depth t).after [b] := by
  have hclosing : ¬ commentStyle.closing.isPrefixOf (b :: t) := by
    simp [commentStyle, blockClose, Ne.symm hminus]
  have hopening : ¬ commentStyle.opensHere (b :: t) := by
    simp [BlockCommentStyle.opensHere, commentStyle, blockOpen, Ne.symm hbrace]
  have hline : ¬ commentStyle.lineStartsHere (b :: t) := by
    simp [BlockCommentStyle.lineStartsHere, commentStyle, dashes, Ne.symm hminus,
      Ne.symm hsemicolon]
  rw [BlockCommentStyle.scan_cons, if_neg hclosing, if_neg hopening, if_neg hline]

theorem scan_blockClose (t : Bytes) :
    commentStyle.scan 0 (blockClose ++ t) = ⟨[], blockClose, true⟩ :=
  BlockCommentStyle.scan_cons commentStyle 0 _ _

theorem scan_plain {c : Bytes} (hc : ∀ b ∈ c, Plain b) (t : Bytes) :
    commentStyle.scan 0 (c ++ (blockClose ++ t)) = ⟨c, blockClose, true⟩ := by
  induction c with
  | nil => exact scan_blockClose t
  | cons b c ih =>
    obtain ⟨hb, hc⟩ := List.forall_mem_cons.1 hc
    rw [List.cons_append, scan_cons_of_ne (hb.ne_of_not not_plain_minus)
      (hb.ne_of_not not_plain_leftBrace) (hb.ne_of_not not_plain_semicolon), ih hc]
    rfl

/-! ## The tokens of the word -/

/-- **No place inside a word becomes its end** by a comment behind the word. -/
theorem atWordEnd_append_of_head {r r' : Bytes} (hr : r'.head? = some Ascii.leftBrace) {x : Bytes}
    (h : ∀ y, y <:+ x → y ≠ [] → atWordEnd (y ++ r) = false) :
    ∀ y, y <:+ x → y ≠ [] → atWordEnd (y ++ r') = false := by
  induction x with
  | nil => exact fun y hy hne => absurd (List.suffix_nil.1 hy) hne
  | cons a x ih =>
    have hrest := ih fun y hy => h y (hy.trans (List.suffix_cons a x))
    have ha := h (a :: x) (List.suffix_refl _) (List.cons_ne_nil a x)
    intro y hy hne
    obtain rfl | hy := List.suffix_cons_iff.1 hy
    · cases x with
      | nil =>
        simp only [List.singleton_append, atWordEnd, dashes, blockClose, isPrefixOf_pair,
          atBlockOpen_cons, hr, Bool.or_eq_false_iff] at ha ⊢
        have hminus : (some Ascii.leftBrace == some Ascii.minus) = false := by decide
        have hbrace : (some Ascii.leftBrace == some Ascii.rightBrace) = false := by decide
        exact ⟨⟨⟨ha.1.1.1, by simp [hminus]⟩, by simp [hbrace]⟩, by simp [hminus]⟩
      | cons b x =>
        have hsame : SameStart (b :: x ++ r) (b :: x ++ r') :=
          .of_not_atWordEnd rfl (h _ (List.suffix_cons a _) (List.cons_ne_nil b x))
            (hrest _ (List.suffix_refl _) (List.cons_ne_nil b x))
        exact (hsame.cons a).wordEnd.symm.trans ha
    · exact hrest y hy hne

theorem tokenize_word_iff {x : Bytes} (hx : x ≠ []) (more : Bytes) :
    tokenize next (x ++ more) = word x :: tokenize next more ↔
      (∀ y, y <:+ x → y ≠ [] → atWordEnd (y ++ more) = false) ∧ atWordEnd more := by
  obtain ⟨b, x, rfl⟩ := List.exists_cons_of_ne_nil hx
  rw [← next_eq_word_iff]
  constructor
  · intro h
    rw [List.cons_append, tokenize, List.cons.injEq] at h
    exact h.1
  · intro h
    have e : b :: (x ++ more) = (next b (x ++ more)).text ++ more := by rw [h]; rfl
    rw [List.cons_append, tokenize_eq next_readsStart e, h, word]

theorem atBlockOpen_append {s : Bytes} (hhead : ∃ b ∈ s.head?, b ≠ Ascii.minus) :
    atBlockOpen (blockOpen ++ s) := by
  obtain ⟨b, hb, hminus⟩ := hhead
  obtain ⟨s, rfl⟩ := List.head?_eq_some_iff.1 hb
  have hsource : blockOpen ++ b :: s = Ascii.leftBrace :: Ascii.minus :: b :: s := rfl
  rw [hsource, atBlockOpen_cons, dashes, isPrefixOf_pair, List.head?_cons]
  simp [hminus]

theorem exists_head_append {s : Bytes} (h : ∃ b ∈ s.head?, b ≠ Ascii.minus) (t : Bytes) :
    ∃ b ∈ (s ++ t).head?, b ≠ Ascii.minus := by
  obtain ⟨b, hb, hminus⟩ := h
  obtain ⟨s, rfl⟩ := List.head?_eq_some_iff.1 hb
  exact ⟨b, rfl, hminus⟩

/-- **A text that begins with a comment** goes on where the scan of the comment ends. -/
theorem tokenize_blockOpen {s more : Bytes} (hhead : ∃ b ∈ s.head?, b ≠ Ascii.minus)
    (hscan : s = (commentStyle.scan 0 s).text ++ more) :
    tokenize next (blockOpen ++ s)
      = Token.blockComment commentStyle (blockOpen ++ s) :: tokenize next more := by
  have hnext : next Ascii.leftBrace (Ascii.minus :: s)
      = Token.blockComment commentStyle (blockOpen ++ s) :=
    next_of_atBlockOpen (atBlockOpen_append hhead)
  have htext : (Token.blockComment commentStyle (blockOpen ++ s)).text
      = blockOpen ++ (commentStyle.scan 0 s).text := List.append_assoc _ _ _
  have e : Ascii.leftBrace :: Ascii.minus :: s
      = (next Ascii.leftBrace (Ascii.minus :: s)).text ++ more := by
    rw [hnext, htext, List.append_assoc, ← hscan]
    rfl
  rw [← hnext]
  exact tokenize_eq next_readsStart e

/-- **A comment whose scan ends with it** is the first token of its text. -/
theorem tokenize_of_scan {c more : Bytes} (hhead : ∃ b ∈ c.head?, b ≠ Ascii.minus)
    (hscan : commentStyle.scan 0 (c ++ (blockClose ++ more)) = ⟨c, blockClose, true⟩) :
    tokenize next (commented c ++ more) = comment c :: tokenize next more := by
  have htext : c ++ (blockClose ++ more)
      = (commentStyle.scan 0 (c ++ (blockClose ++ more))).text ++ more := by
    rw [hscan, BlockCommentStyle.Span.text, List.append_assoc]
  rw [commented, List.append_assoc, List.append_assoc,
    tokenize_blockOpen (exists_head_append hhead _) htext, Token.blockComment,
    read_blockOpen_append, hscan]
  rfl

section Commented

variable {u v c : Bytes} (hu : u ≠ []) (hv : v ≠ []) (hne : c ≠ []) (hc : ∀ b ∈ c, Plain b)

include hne hc

theorem exists_head_plain : ∃ b ∈ c.head?, b ≠ Ascii.minus := by
  obtain ⟨b, c, rfl⟩ := List.exists_cons_of_ne_nil hne
  exact ⟨b, rfl, (hc b List.mem_cons_self).ne_of_not not_plain_minus⟩

theorem atWordEnd_commented (more : Bytes) : atWordEnd (commented c ++ more) := by
  have hopen := atBlockOpen_append
    (exists_head_append (exists_head_plain hne hc) (blockClose ++ more))
  have hsource : commented c ++ more = blockOpen ++ (c ++ (blockClose ++ more)) := by
    simp [commented]
  have hhead : blockOpen ++ (c ++ (blockClose ++ more))
      = Ascii.leftBrace :: Ascii.minus :: (c ++ (blockClose ++ more)) := rfl
  rw [hsource, hhead, atWordEnd, ← hhead, hopen, Bool.or_true]

theorem tokenize_comment (more : Bytes) :
    tokenize next (commented c ++ more) = comment c :: tokenize next more :=
  tokenize_of_scan (exists_head_plain hne hc) (scan_plain hc more)

include hu hv

/-- **A word with a comment put into it** is two words and the comment. -/
theorem tokenize_commented {more : Bytes}
    (h : tokenize next (u ++ v ++ more) = word (u ++ v) :: tokenize next more) :
    tokenize next (u ++ (commented c ++ (v ++ more)))
        = word u :: comment c :: word v :: tokenize next more ∧
      SameStart (u ++ v ++ more) (u ++ (commented c ++ (v ++ more))) := by
  rw [tokenize_word_iff (List.append_ne_nil_of_left_ne_nil hu v)] at h
  obtain ⟨hinside, hend⟩ := h
  have hfirst : ∀ y, y <:+ u → y ≠ [] → atWordEnd (y ++ (v ++ more)) = false := by
    intro y hy hne
    rw [← List.append_assoc]
    exact hinside _ (List.suffix_append_self_iff.2 hy) (List.append_ne_nil_of_left_ne_nil hne v)
  have hsecond : ∀ y, y <:+ v → y ≠ [] → atWordEnd (y ++ more) = false :=
    fun y hy => hinside y (hy.trans (List.suffix_append u v))
  have hhead : (commented c ++ (v ++ more)).head? = some Ascii.leftBrace := rfl
  have hcomment := atWordEnd_append_of_head hhead hfirst
  refine ⟨?_, ?_⟩
  · rw [(tokenize_word_iff hu _).2 ⟨hcomment, atWordEnd_commented hne hc _⟩,
      tokenize_comment hne hc, (tokenize_word_iff hv _).2 ⟨hsecond, hend⟩]
  · obtain ⟨a, u, rfl⟩ := List.exists_cons_of_ne_nil hu
    rw [List.append_assoc]
    exact .of_not_atWordEnd rfl (hfirst _ (List.suffix_refl _) hu)
      (hcomment _ (List.suffix_refl _) hu)

end Commented

/-! ## The tokens of the program -/

theorem isValid_commented {c : Bytes} (hc : ∀ b ∈ c, Plain b) : Utf8.isValid (commented c) := by
  refine Utf8.isValid_append (Utf8.isValid_append ?_ ?_) ?_
  · exact Utf8.isValid_of_forall_lt (by decide +kernel)
  · exact Utf8.isValid_of_forall_lt fun b hb => (hc b hb).lt
  · exact Utf8.isValid_of_forall_lt (by decide +kernel)

theorem eq_word_of_mem_lex {src : Bytes} {t : Token} (ht : t ∈ lex src) (h : t.kind = .word) :
    t = word t.text := by
  revert h
  refine forall_mem_lex (P := fun t => t.kind = .word → t = word t.text) (fun b rest => ?_)
    (fun _ _ _ h => by cases h) src t ht
  refine next_cases (motive := fun t => t.kind = .word → t = word t.text) b rest
    ?_ ?_ ?_ ?_ ?_ ?_ ?_
  · intro _ _ _ h; cases h
  · intro _ h; cases h
  · intro _ h; cases h
  · intro _ h; cases h
  · intro _ h; cases h
  · intro _ h; cases h
  · exact fun _ _ => rfl

theorem tokenize_of_lex {src x : Bytes} {before after : List Token}
    (h : lex src = before ++ word x :: after) :
    ∃ more, tokenize next (src.take (Utf8.validLength src)) = before ++ word x :: more ∧
      after = more ++ invalidTail (src.drop (Utf8.validLength src)) := by
  have hword : word x ∉ invalidTail (src.drop (Utf8.validLength src)) := by
    intro hmem
    cases congrArg Token.kind (mem_invalidTail hmem).2
  rw [lex, List.append_eq_append_iff] at h
  obtain ⟨mid, -, hmid⟩ | ⟨mid, htokens, hmid⟩ := h
  · rw [hmid] at hword
    simp at hword
  · cases mid with
    | nil =>
      rw [List.nil_append] at hmid
      rw [← hmid] at hword
      simp at hword
    | cons t more =>
      obtain ⟨rfl, hafter⟩ := List.cons.inj hmid
      exact ⟨more, htokens, hafter⟩

theorem lex_append {x : Bytes} (hx : Utf8.isValid x) (q : Bytes) :
    lex (x ++ q) = tokenize next (x ++ q.take (Utf8.validLength q))
      ++ invalidTail (q.drop (Utf8.validLength q)) := by
  rw [lex, Utf8.validLength_append hx, List.take_length_add_append, List.drop_length_add_append]

theorem exists_of_mem_locate {u : ColumnUnit} {pos : Pos} {ts : List Token} {t : Located}
    (h : t ∈ locate u pos ts) : ∃ before after, ts = before ++ t.token :: after ∧
      t.start = pos.advance u (texts before) := by
  induction ts generalizing pos with
  | nil => cases h
  | cons first ts ih =>
    rw [locate, List.mem_cons] at h
    obtain rfl | h := h
    · exact ⟨[], ts, rfl, rfl⟩
    · obtain ⟨before, after, rfl, hstart⟩ := ih h
      refine ⟨first :: before, after, rfl, ?_⟩
      rw [hstart, texts_cons, Pos.advance_append]

section Program

variable {p q u v : Bytes} (hword : ∃ t ∈ locate .codePoint {} (lex (p ++ (u ++ v) ++ q)),
  t.token.kind = .word ∧ t.token.text = u ++ v ∧ t.start.offset = p.length)

include hword

theorem exists_lex_eq : ∃ before after,
    lex (p ++ (u ++ v) ++ q) = before ++ word (u ++ v) :: after ∧ texts before = p := by
  obtain ⟨t, ht, hkind, htext, hoffset⟩ := hword
  obtain ⟨before, after, hlex, hstart⟩ := exists_of_mem_locate ht
  have htoken : t.token = word t.token.text :=
    eq_word_of_mem_lex (by rw [hlex]; simp) hkind
  refine ⟨before, after, by rw [hlex, ← htext, ← htoken], ?_⟩
  have hsource := texts_lex (p ++ (u ++ v) ++ q)
  rw [hlex, texts_append, List.append_assoc] at hsource
  rw [hstart, Pos.offset_advance, Nat.zero_add] at hoffset
  exact (List.append_inj hsource hoffset).1

variable (hu : u ≠ []) (hv : v ≠ []) (hvalid : Utf8.isValid u) (hvalid' : Utf8.isValid v)

include hu hvalid

theorem isValid_before : Utf8.isValid p := by
  obtain ⟨before, after, hlex, rfl⟩ := exists_lex_eq hword
  obtain ⟨more, htokens, -⟩ := tokenize_of_lex hlex
  obtain ⟨hsource, -⟩ := tokenize_eq_append next_readsStart htokens
  obtain ⟨b, u, rfl⟩ := List.exists_cons_of_ne_nil hu
  have hsplit : texts before ++ (b :: u ++ v) ++ q = texts before ++ b :: (u ++ v ++ q) := by simp
  refine Utf8.isValid_of_lt_validLength (t := u ++ v ++ q)
    (Utf8.isContinuation_of_isValid hvalid) ?_
  have hle := List.length_take_le (Utf8.validLength (texts before ++ (b :: u ++ v) ++ q))
    (texts before ++ (b :: u ++ v) ++ q)
  rw [hsource, hsplit, List.length_append, texts_cons, List.length_append, word, Token.text,
    List.cons_append, List.length_cons] at hle
  omega

include hv hvalid'

/-- **The tokens of a program with a comment put into a word.** -/
theorem lex_commented {c : Bytes} (hne : c ≠ []) (hc : ∀ b ∈ c, Plain b) :
    ∃ before after, lex (p ++ (u ++ v) ++ q) = before ++ word (u ++ v) :: after ∧
      lex (p ++ (u ++ commented c ++ v) ++ q)
        = before ++ word u :: comment c :: word v :: after := by
  have hbefore := isValid_before hword hu hvalid
  obtain ⟨before, after, hlex, rfl⟩ := exists_lex_eq hword
  refine ⟨before, after, hlex, ?_⟩
  obtain ⟨more, htokens, rfl⟩ := tokenize_of_lex hlex
  have hlength := Utf8.validLength_append
    (Utf8.isValid_append hbefore (Utf8.isValid_append hvalid hvalid')) q
  rw [hlength, List.take_length_add_append] at htokens
  -- the well-formed start of the program is cut in front of the word and behind it
  obtain ⟨hsource, hfrom⟩ := tokenize_eq_append next_readsStart htokens
  have hword : tokenize next (texts (word (u ++ v) :: more)) = [word (u ++ v)] ++ more := hfrom
  obtain ⟨-, hmore⟩ := tokenize_eq_append next_readsStart hword
  have hrest : q.take (Utf8.validLength q) = texts more := by
    rw [List.append_assoc] at hsource
    exact List.append_cancel_left (List.append_cancel_left hsource)
  have hfirst : tokenize next (u ++ v ++ texts more)
      = word (u ++ v) :: tokenize next (texts more) := by
    rw [hmore]; exact hfrom
  obtain ⟨hsecond, hsame⟩ := tokenize_commented hu hv hne hc hfirst
  have hbefore' : tokenize next (texts before ++ (u ++ v ++ texts more))
      = before ++ tokenize next (u ++ v ++ texts more) := by
    rw [hfirst, hmore, ← hrest, ← List.append_assoc]; exact htokens
  have hall := tokenize_before hsame hbefore'
  rw [lex_append (Utf8.isValid_append hbefore
    (Utf8.isValid_append (Utf8.isValid_append hvalid (isValid_commented hc)) hvalid')) q, hrest,
    hlength, List.drop_length_add_append]
  simp only [List.append_assoc] at hall ⊢
  rw [hall, hsecond, hmore]
  simp

end Program

end WhitespaceAsm.Burghard

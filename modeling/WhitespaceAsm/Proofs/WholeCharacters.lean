import WhitespaceAsm.Proofs.Burghard.Lookahead
import WhitespaceAsm.Proofs.Lexer
import WhitespaceAsm.Proofs.Utf8.Boundary
import WhitespaceAsm.Proofs.Utf8.Trim

/-!
# No token ends inside a character

Rules look at bytes, and some of them take bytes without looking. Still every token of a well-formed
text ends at its end, behind an ASCII byte, or in front of a byte that begins a character.

* `Token.WholeCharacters`, **`KeepsCharacters`**: a token, and every token of a rule, consists of
  whole characters;
* **`Lexicon.isValid_iff_forall_token`**: a program is well-formed when all of its tokens are.
-/

namespace WhitespaceAsm

/-! ## Rules -/

/-- **A token of whole characters**, and so is the token in it if it is a wrapper. -/
structure Token.WholeCharacters (t : Token) : Prop where
  text : Utf8.isValid t.text
  unwrap_text : Utf8.isValid t.unwrap.text

theorem Token.wholeCharacters_plain {text : Bytes} (p : Payload) (h : Utf8.isValid text) :
    (Token.plain text p).WholeCharacters := ⟨h, h⟩

theorem Token.wholeCharacters_endOfInput : Token.endOfInput.WholeCharacters :=
  wholeCharacters_plain _ Utf8.isValid_nil

/-- **A rule ends no token inside a character** of a well-formed text. -/
def KeepsCharacters (next : UInt8 → Bytes → Token) : Prop :=
  ∀ b rest, Utf8.isValid (b :: rest) → (next b rest).WholeCharacters

/-- **All tokens of a well-formed text.** What is behind a token is well-formed again. -/
theorem forall_mem_tokenize_of_isValid {next : UInt8 → Bytes → Token} (h : ReadsStart next)
    (hnext : KeepsCharacters next) {s : Bytes} (hs : Utf8.isValid s) :
    ∀ t ∈ tokenize next s, t.WholeCharacters := by
  induction s using h.induction with
  | nil => simp [tokenize]
  | cons b rest more e ih =>
    have hfirst := hnext b rest hs
    rw [tokenize_eq h e]
    rw [e] at hs
    exact List.forall_mem_cons.2 ⟨hfirst, ih (Utf8.isValid_right hs hfirst.text)⟩

theorem isValid_texts {ts : List Token} (h : ∀ t ∈ ts, Utf8.isValid t.text) :
    Utf8.isValid (texts ts) := by
  induction ts with
  | nil => exact Utf8.isValid_nil
  | cons t ts ih =>
    obtain ⟨ht, hts⟩ := List.forall_mem_cons.1 h
    exact Utf8.isValid_append ht (ih hts)

theorem Token.wholeCharacters_lineComment (n : Nat) {s : Bytes} (h : Utf8.isValid s) :
    (lineComment n s).WholeCharacters := wholeCharacters_plain _ (Utf8.isValid_lineComment n h)

theorem Token.wholeCharacters_checkedComment (n : Nat) {s : Bytes} (h : Utf8.isValid s) :
    (checkedComment n s).WholeCharacters := wholeCharacters_plain _ (Utf8.isValid_lineComment n h)

section Runs

variable {b : UInt8} {rest : Bytes} {p : UInt8 → Bool} (payload : Payload)

theorem Token.wholeCharacters_byte (hb : b < 0x80) : (plain [b] payload).WholeCharacters :=
  wholeCharacters_plain payload (Utf8.isValid_byte hb)

theorem Token.wholeCharacters_run (hb : b < 0x80) (hp : ∀ c, p c → c < 0x80) :
    (plain (b :: rest.takeWhile p) payload).WholeCharacters :=
  wholeCharacters_plain payload (Utf8.isValid_cons_takeWhile_of_lt hb hp rest)

theorem Token.wholeCharacters_until (h : Utf8.isValid (b :: rest)) (hp : ∀ c, p c → c < 0x80) :
    (plain (b :: rest.takeWhile fun c => !p c) payload).WholeCharacters := by
  refine wholeCharacters_plain payload (Utf8.isValid_cons_takeWhile (fun c hc => ?_) h)
  exact Utf8.isContinuation_of_lt (hp c (by simpa using hc))

end Runs

/-! ## Burghard -/

namespace Burghard

theorem isValid_blockComment {s : Bytes} (hopen : blockOpen <+: s) (h : Utf8.isValid s) :
    Utf8.isValid (commentStyle.read s).text := by
  obtain ⟨rest, rfl⟩ := hopen
  have hread := read_blockOpen_append rest
  cases hterminated : (commentStyle.scan 0 rest).terminated with
  | true =>
    rw [BlockComment.text, hread, closing_scan hterminated]
    obtain ⟨more, e⟩ := commentStyle.text_read_isPrefix (blockOpen ++ rest)
    rw [← e, BlockComment.text, hread, closing_scan hterminated] at h
    have hcut := Utf8.isValid_concat_of_append (c := Ascii.rightBrace) (y := more)
      (x := blockOpen ++ (commentStyle.scan 0 rest).body ++ [Ascii.minus]) (by decide)
      (by simpa [blockClose] using h)
    simpa [blockClose] using hcut
  | false =>
    have htext := text_scan_of_not_terminated hterminated
    rw [BlockCommentStyle.Span.text] at htext
    rwa [BlockComment.text, hread, List.append_assoc, htext]

theorem lt_of_isSpace {b : UInt8} (h : isSpace b) : b < 0x80 := by
  grind [isSpace]

theorem lt_of_atWordEnd {c : UInt8} {t : Bytes} (h : atWordEnd (c :: t)) : c < 0x80 := by
  obtain hword | rfl | ⟨-, rfl, -⟩ | hopen | ⟨-, rfl, -⟩ | hspace | rfl | rfl := next_dispatch c t
  · rw [h] at hword
    cases hword
  · decide
  · decide
  · rw [atBlockOpen, Bool.and_eq_true, List.isPrefixOf_iff_prefix] at hopen
    obtain ⟨more, e⟩ := hopen.1
    obtain rfl : Ascii.leftBrace = c := (List.cons.inj e).1
    decide
  · decide
  · exact lt_of_isSpace hspace
  · decide
  · decide

theorem readQuoted_wholeCharacters {rest : Bytes}
    (h : Utf8.isValid (Ascii.doubleQuote :: rest)) : (readQuoted rest).WholeCharacters := by
  let word := rest.takeWhile fun b => b != Ascii.doubleQuote && b != Ascii.lf
  have hword : Utf8.isValid word := by
    refine Utf8.isValid_of_quote (by decide) (List.takeWhile_prefix _) (fun c hc => ?_) h
    have hstop := not_of_drop_takeWhile hc
    rw [Bool.and_eq_false_iff, bne_eq_false_iff_eq, bne_eq_false_iff_eq] at hstop
    obtain rfl | rfl := hstop
    · decide
    · decide
  have hquote : Utf8.isValid [Ascii.doubleQuote] := Utf8.isValid_byte (by decide)
  refine ⟨?_, hword⟩
  refine Utf8.isValid_append (Utf8.isValid_append hquote hword) ?_
  split
  · exact hquote
  · exact Token.wholeCharacters_endOfInput.text

theorem next_keepsCharacters : KeepsCharacters next := by
  intro b rest h
  refine next_cases (motive := Token.WholeCharacters) b rest ?_ ?_ ?_ ?_ ?_ ?_ ?_
  · exact fun n _ _ => Token.wholeCharacters_lineComment n h
  · intro hopen
    rw [atBlockOpen, Bool.and_eq_true, List.isPrefixOf_iff_prefix] at hopen
    exact Token.wholeCharacters_plain _ (isValid_blockComment hopen.1 h)
  · exact fun _ => Token.wholeCharacters_plain _ (Utf8.isValid_of_forall_lt (by decide +kernel))
  · intro hspace
    exact Token.wholeCharacters_run _ (lt_of_isSpace hspace) fun _ => lt_of_isSpace
  · exact fun _ => Token.wholeCharacters_byte _ (by decide)
  · rintro rfl
    exact readQuoted_wholeCharacters h
  · intro _
    refine Token.wholeCharacters_plain _ (Utf8.isValid_cons_takeUntil (fun c t hend => ?_) h)
    exact Utf8.isContinuation_of_lt (lt_of_atWordEnd hend)

end Burghard

/-! ## Palaiologos -/

namespace Palaiologos

theorem lt_of_mem_takeUntil_endsInvalid {rest : Bytes} :
    ∀ c ∈ takeUntil endsInvalid rest, c < 0x80 := by
  refine forall_mem_takeUntil (fun c t hend => lt_of_isMnemonicByte ?_) rest
  rw [endsInvalid, Bool.or_eq_false_iff] at hend
  simpa using hend.1

theorem next_keepsCharacters : KeepsCharacters next := by
  intro b rest h
  refine next_classes (motive := Token.WholeCharacters) b rest ?_ ?_ ?_ ?_ ?_ ?_ ?_ ?_ ?_ ?_ ?_
  · exact fun m hm => Token.wholeCharacters_plain _
      (Utf8.isValid_of_forall_lt (lt_of_get?_eq_some (get?_take_longestMatch hm)))
  · exact fun hb => Token.wholeCharacters_plain _ (Utf8.isValid_of_forall_lt
      (List.forall_mem_cons.2 ⟨lt_of_isMnemonicByte hb, lt_of_mem_takeUntil_endsInvalid⟩))
  · exact fun text _ hlt => Token.wholeCharacters_plain _ (Utf8.isValid_of_forall_lt hlt)
  · exact fun hb => Token.wholeCharacters_byte _ hb
  · exact fun hb => Token.wholeCharacters_run _ hb fun _ => Ascii.lt_of_isIdentifier
  · rintro rfl
    exact Token.wholeCharacters_plain _ (Utf8.isValid_quoted (by decide) h)
  · rintro rfl
    exact Token.wholeCharacters_plain _ (Utf8.isValid_quoted (by decide) h)
  · exact Token.wholeCharacters_lineComment 1 h
  · exact fun p _ hb => Token.wholeCharacters_byte p hb
  · exact fun hb => Token.wholeCharacters_run _ (lt_of_isSpace hb) fun _ => lt_of_isSpace
  · exact Token.wholeCharacters_until _ h fun _ => lt_of_startsToken

end Palaiologos

/-! ## Voliva -/

namespace Voliva

theorem isContinuation_of_atWordEnd {c : UInt8} {t : Bytes} (h : atWordEnd (c :: t)) :
    Utf8.isContinuation c = false := by
  simp only [atWordEnd, Bool.or_eq_true, beq_iff_eq] at h
  obtain (((rfl | rfl) | rfl) | rfl) | h := h
  · decide
  · decide
  · decide
  · decide
  · rw [atSpace, Bool.and_eq_true] at h
    exact Utf8.isContinuation_of_valid h.1

theorem next_keepsCharacters : KeepsCharacters next := by
  intro b rest h
  refine next_classes (motive := Token.WholeCharacters) b rest ?_ ?_ ?_ ?_ ?_ ?_
  · rintro rfl
    exact Token.wholeCharacters_plain _ (Utf8.isValid_quoted (by decide) h)
  · rintro rfl
    exact Token.wholeCharacters_plain _ (Utf8.isValid_quoted (by decide) h)
  · exact Token.wholeCharacters_checkedComment 1 h
  · exact fun _ => Token.wholeCharacters_byte _ (by decide)
  · exact fun _ => Token.wholeCharacters_plain _ (Utf8.run_takeChars isSpace _).isValid
  · refine wordToken_cases _ fun p _ => Token.wholeCharacters_plain p ?_
    exact Utf8.isValid_cons_takeUntil (fun c t => isContinuation_of_atWordEnd) h

end Voliva

/-! ## The dialects without a parser -/

namespace CensoredUsername

theorem lt_of_isSpace {b : UInt8} (h : isSpace b) : b < 0x80 := by
  grind [isSpace]

theorem lt_of_startsToken {b : UInt8} (h : startsToken b) : b < 0x80 := by
  simp only [startsToken, Bool.or_eq_true, beq_iff_eq, or_assoc] at h
  obtain h | h | h := h
  · exact Ascii.lt_of_isIdentifier h
  · exact lt_of_isSpace h
  · grind

theorem next_keepsCharacters : KeepsCharacters next := by
  intro b rest h
  unfold next
  split
  · next hb =>
    have hlt : b < 0x80 := Ascii.lt_of_isIdentifier (by grind [isWordStart, Ascii.isIdentifier])
    exact Token.wholeCharacters_run _ hlt fun _ => Ascii.lt_of_isIdentifier
  split
  · next hb =>
    have hlt : b < 0x80 := by grind [Ascii.isDigit]
    exact Token.wholeCharacters_run _ hlt fun _ => Ascii.lt_of_isIdentifier
  split
  · next hb => exact Token.wholeCharacters_byte _ (by rw [hb]; decide)
  split
  · next hb => exact Token.wholeCharacters_byte _ (by rw [hb]; decide)
  split
  · exact Token.wholeCharacters_checkedComment 1 h
  split
  · next hb => exact Token.wholeCharacters_byte _ (by rw [hb]; decide)
  split
  · next hb => exact Token.wholeCharacters_run _ (lt_of_isSpace hb) fun _ => lt_of_isSpace
  · exact Token.wholeCharacters_until _ h fun _ => lt_of_startsToken

end CensoredUsername

namespace Wconrad

theorem lt_of_isSpace {b : UInt8} (h : isSpace b) : b < 0x80 := by
  grind [isSpace]

theorem lt_of_endsWord {b : UInt8} (h : endsWord b) : b < 0x80 := by
  grind [endsWord, isSpace]

theorem next_keepsCharacters : KeepsCharacters next := by
  intro b rest h
  unfold next
  split
  · exact Token.wholeCharacters_checkedComment 1 h
  split
  · next hb => exact Token.wholeCharacters_byte _ (by rw [hb]; decide)
  split
  · next hb => exact Token.wholeCharacters_run _ (lt_of_isSpace hb) fun _ => lt_of_isSpace
  unfold readWord
  dsimp only
  split
  · exact Token.wholeCharacters_until _ h fun _ => lt_of_endsWord
  · exact Token.wholeCharacters_until _ h fun _ => lt_of_endsWord

end Wconrad

namespace Wsf

theorem lt_of_isSpace {b : UInt8} (h : isSpace b) : b < 0x80 := by
  grind [isSpace]

theorem lt_of_isWordByte {b : UInt8} (h : isWordByte b) : b < 0x80 := by
  simp only [isWordByte, Bool.or_eq_true, beq_iff_eq] at h
  obtain (h | rfl) | rfl := h
  · exact Ascii.lt_of_isIdentifier h
  · decide
  · decide

theorem lt_of_startsToken {b : UInt8} (h : startsToken b) : b < 0x80 := by
  simp only [startsToken, Bool.or_eq_true, beq_iff_eq, or_assoc] at h
  obtain h | h | h := h
  · exact lt_of_isWordByte h
  · exact lt_of_isSpace h
  · grind

theorem next_keepsCharacters : KeepsCharacters next := by
  intro b rest h
  unfold next
  split
  · next hb =>
    have hlt : b < 0x80 := lt_of_isWordByte
      (by grind [isWordStart, isWordByte, Ascii.isIdentifier])
    exact Token.wholeCharacters_run _ hlt fun _ => lt_of_isWordByte
  split
  · next hb =>
    have hlt : b < 0x80 := by grind [Ascii.isDigit]
    exact Token.wholeCharacters_run _ hlt fun _ => Ascii.lt_of_isIdentifier
  split
  · next hb => exact Token.wholeCharacters_byte _ (by rw [hb]; decide)
  split
  · exact Token.wholeCharacters_checkedComment 1 h
  split
  · next hb => exact Token.wholeCharacters_byte _ (by rw [hb]; decide)
  split
  · next hb => exact Token.wholeCharacters_run _ (lt_of_isSpace hb) fun _ => lt_of_isSpace
  · exact Token.wholeCharacters_until _ h fun _ => lt_of_startsToken

end Wsf

/-! ## All dialects -/

namespace Lexicon

theorem next_keepsCharacters (l : Lexicon) : KeepsCharacters l.next :=
  match l with
  | burghard => Burghard.next_keepsCharacters
  | palaiologos => Palaiologos.next_keepsCharacters
  | voliva => Voliva.next_keepsCharacters
  | censoredUsername => CensoredUsername.next_keepsCharacters
  | wconrad => Wconrad.next_keepsCharacters
  | wsf => Wsf.next_keepsCharacters

theorem wholeCharacters_of_mem_lex {l : Lexicon} {src : Bytes} (h : Utf8.isValid src) {t : Token}
    (ht : t ∈ l.lex src) : t.WholeCharacters := by
  have hlex : l.lex src = tokenize l.next src := by
    by_cases hl : l = burghard
    · subst hl
      exact Burghard.lex_of_isValid h
    · exact lex_eq_tokenize hl src
  rw [hlex] at ht
  exact forall_mem_tokenize_of_isValid l.next_readsStart l.next_keepsCharacters h t ht

/-- **No lexer splits a character.** A program is well-formed when every token that its lexer
returns is, and then so is the token inside each wrapper. -/
theorem isValid_iff_forall_token (l : Lexicon) (src : Bytes) :
    Utf8.isValid src ↔ ∀ n, ((l.lexer src).token n).WholeCharacters := by
  constructor
  · intro h n
    obtain hn | hn := Nat.lt_or_ge n (l.lex src).length
    · rw [token_lexer_of_lt l src hn]
      exact wholeCharacters_of_mem_lex h (List.getElem_mem hn)
    · rw [token_lexer_of_le l src hn]
      exact Token.wholeCharacters_endOfInput
  · intro h
    have htexts := texts_map_token_lexer l src (l.lex src).length
    rw [List.take_length, texts_lex] at htexts
    rw [← htexts]
    refine isValid_texts fun t ht => ?_
    obtain ⟨n, -, rfl⟩ := List.mem_map.1 ht
    exact (h n).text

end Lexicon

end WhitespaceAsm

import WhitespaceAsm.Proofs.Lexer
import WhitespaceAsm.Proofs.WholeCharacters

/-!
# The ill-formed tail of a Burghard program

A scanner over code points holds the whole source and reads it up to a limit. Nothing behind the
limit has an influence on what it does: the scanner that has no source there does the same, and so
does the lexer, call by call. The tokens in front of an ill-formed tail are therefore those of the
program without the tail.

* **`Scanner.cut`**: the scanner without what lies behind its limit; `Scanner.rest_cut`,
  `Scanner.advanceTo_cut`: looking and moving;
* `Lexer.nextToken_cut`, **`Lexer.after_cut`**: one call, and any number of calls;
* **`Burghard.lex_illFormed_tail`**: the tokens of a program with an ill-formed tail.
-/

namespace WhitespaceAsm

/-! ## Scanners -/

namespace Scanner

/-- **The scanner over its source up to the limit.** -/
def cut (s : Scanner) : Scanner := { s with source := s.source.take s.limit }

variable (s : Scanner)

theorem take_drop_source_cut {first n : Nat} (h : n ≤ s.limit - first) :
    (s.cut.source.drop first).take n = (s.source.drop first).take n := by
  rw [cut, List.drop_take, List.take_take, Nat.min_eq_left h]

theorem rest_cut : s.cut.rest = s.rest := s.take_drop_source_cut (Nat.le_refl _)

variable {s}

theorem advanceTo_cut {offset : Nat} (h : offset ≤ s.limit) :
    s.cut.advanceTo offset = (s.advanceTo offset).cut := by
  have hpassed := s.take_drop_source_cut (Nat.sub_le_sub_right h s.pos.offset)
  exact congrArg (fun passed => { s.cut with pos := s.pos.advance s.columns passed }) hpassed

theorem advanceTo_text_cut (h : s.WellPlaced) {text : Bytes} (ht : text <+: s.rest) :
    s.cut.advanceTo (s.pos.offset + text.length)
      = (s.advanceTo (s.pos.offset + text.length)).cut := by
  have hlen := ht.length_le
  have hle := h.offset_le
  rw [rest_length h] at hlen
  exact advanceTo_cut (by omega)

end Scanner

/-! ## Calls -/

namespace Lexer

/-- **The lexer over its source up to the limit.** -/
def cut (l : Lexer) : Lexer := { l with scanner := l.scanner.cut }

theorem ne_nil_of_tokenize_eq_drop {next : UInt8 → Bytes → Token} {rest : Bytes} {ts : List Token}
    {n : Nat} (h : tokenize next rest = ts.drop n) (hn : n < ts.length) : rest ≠ [] := by
  rintro rfl
  rw [tokenize] at h
  exact absurd hn (Nat.not_lt.2 (List.drop_eq_nil_iff.1 h.symm))

variable {l : Lexer} (h : l.scanner.WellPlaced) (hnext : ReadsStart l.next)

include h hnext

/-- **A call on the lexer without what lies behind its limit.** It differs only when everything up
to there has been read. -/
theorem nextToken_cut (hrest : l.scanner.rest ≠ []) :
    l.cut.nextToken = (l.nextToken.1, l.nextToken.2.cut) := by
  obtain ⟨b, rest, hrest⟩ := List.exists_cons_of_ne_nil hrest
  have hcut : l.cut.scanner.rest = b :: rest := (Scanner.rest_cut _).trans hrest
  have htext : (l.next b rest).text <+: l.scanner.startNext.rest := by
    rw [show l.scanner.startNext.rest = b :: rest from hrest]
    exact (hnext b rest).text_isPrefix
  rw [nextToken_cons hrest, nextToken_cons hcut]
  exact congrArg (fun s => (l.next b rest, Lexer.mk l.next s))
    (Scanner.advanceTo_text_cut h.startNext htext)

theorem tokenize_rest_nextToken (hrest : l.scanner.rest ≠ []) :
    tokenize l.next l.nextToken.2.scanner.rest = (tokenize l.next l.scanner.rest).tail := by
  obtain ⟨b, rest, hrest⟩ := List.exists_cons_of_ne_nil hrest
  have hstart : l.scanner.startNext.rest = b :: rest := hrest
  have htext : (l.next b rest).text <+: l.scanner.startNext.rest := by
    rw [hstart]
    exact (hnext b rest).text_isPrefix
  have hsplit := Scanner.rest_advanceTo h.startNext htext
  rw [hstart] at hsplit
  rw [nextToken_cons hrest, hrest, tokenize_eq hnext hsplit]
  rfl

theorem tokenize_rest_after {n : Nat} (hn : n ≤ (tokenize l.next l.scanner.rest).length) :
    tokenize l.next (l.after n).scanner.rest = (tokenize l.next l.scanner.rest).drop n := by
  induction n with
  | zero => rfl
  | succ n ih =>
    obtain ⟨hplaced, hrule, -⟩ := after_spec h hnext n
    have htokens := ih (Nat.le_of_succ_le hn)
    have hcall := tokenize_rest_nextToken hplaced (hrule ▸ hnext)
      (ne_nil_of_tokenize_eq_drop htokens hn)
    rw [hrule, htokens, List.tail_drop] at hcall
    exact hcall

theorem rest_after_ne_nil {n : Nat} (hn : n < (tokenize l.next l.scanner.rest).length) :
    (l.after n).scanner.rest ≠ [] :=
  ne_nil_of_tokenize_eq_drop (tokenize_rest_after h hnext hn.le) hn

/-- **The lexer without what lies behind its limit is at the same place after as many calls**, until
everything up to the limit has been handed out. -/
theorem after_cut {n : Nat} (hn : n ≤ (tokenize l.next l.scanner.rest).length) :
    l.cut.after n = (l.after n).cut := by
  induction n with
  | zero => rfl
  | succ n ih =>
    obtain ⟨hplaced, hrule, -⟩ := after_spec h hnext n
    have hrest := rest_after_ne_nil h hnext hn
    rw [after, after, ih (Nat.le_of_succ_le hn), nextToken_cut hplaced (hrule ▸ hnext) hrest]

theorem token_cut {n : Nat} (hn : n < (tokenize l.next l.scanner.rest).length) :
    l.cut.token n = l.token n := by
  obtain ⟨hplaced, hrule, -⟩ := after_spec h hnext n
  have hrest := rest_after_ne_nil h hnext hn
  rw [token, token, after_cut h hnext hn.le, nextToken_cut hplaced (hrule ▸ hnext) hrest]

end Lexer

/-! ## Programs -/

namespace Burghard

theorem validLength_take_validLength (src : Bytes) :
    Utf8.validLength (src.take (Utf8.validLength src)) = Utf8.validLength src := by
  have hvalid := Utf8.isValid_take_validLength src
  rw [Utf8.isValid, beq_iff_eq] at hvalid
  rw [hvalid, List.length_take_of_le (Utf8.validLength_le src)]

theorem lexer_cut (src : Bytes) : (Lexicon.burghard.lexer src).cut
    = Lexicon.burghard.lexer (src.take (Utf8.validLength src)) :=
  congrArg (fun limit => Lexer.mk next
      { source := src.take (Utf8.validLength src), limit, columns := .codePoint })
    (validLength_take_validLength src).symm

/-- **An ill-formed tail does not disturb what precedes it**, neither the tokens nor the lexer, and
is one token itself. -/
theorem lex_illFormed_tail {src : Bytes} (h : Utf8.validLength src < src.length) :
    let front := src.take (Utf8.validLength src)
    let tail := src.drop (Utf8.validLength src)
    let invalid : Token := .plain tail (.error .invalidUtf8 (Utf8.decode tail).length)
    lex src = lex front ++ [invalid] ∧
    (∀ t ∈ lex front, t.WholeCharacters ∧ t.kind ≠ .error) ∧
    (∀ n < (lex front).length,
      (Lexicon.burghard.lexer src).token n = (Lexicon.burghard.lexer front).token n) ∧
    (∀ n ≤ (lex front).length,
      ((Lexicon.burghard.lexer src).after n).cut = (Lexicon.burghard.lexer front).after n) ∧
    (Lexicon.burghard.lexer src).token (lex front).length = invalid := by
  intro front tail invalid
  have hfront : Utf8.isValid front := Utf8.isValid_take_validLength src
  have hlexfront : lex front = tokenize next front := lex_of_isValid hfront
  have htail : tail ≠ [] := by
    rw [ne_eq, List.drop_eq_nil_iff, Nat.not_le]
    exact h
  have hlex : lex src = lex front ++ [invalid] := by
    rw [hlexfront, lex, invalidTail, if_neg htail]
  have hplaced := Lexicon.scanner_wellPlaced .burghard src
  refine ⟨hlex, ?_, ?_, ?_, ?_⟩
  · intro t ht
    refine ⟨Lexicon.wholeCharacters_of_mem_lex (l := .burghard) hfront ht, ?_⟩
    rw [hlexfront] at ht
    exact forall_mem_tokenize next_readsStart (P := fun t => t.kind ≠ .error)
      kind_next_ne_error front t ht
  · intro n hn
    rw [hlexfront] at hn
    rw [← lexer_cut]
    exact (Lexer.token_cut hplaced next_readsStart hn).symm
  · intro n hn
    rw [hlexfront] at hn
    rw [← lexer_cut]
    exact (Lexer.after_cut hplaced next_readsStart hn).symm
  · rw [Lexicon.token_lexer]
    change ((lex src).drop _).headD _ = _
    rw [hlex, List.drop_left]
    rfl

/-- A block comment without an end in front of a byte that begins no character. -/
theorem lex_illFormed_tail_comment :
    Utf8.validLength (blockOpen ++ [0xFF]) < (blockOpen ++ [0xFF]).length ∧
      lex (blockOpen ++ [0xFF]) = lex blockOpen ++ [.plain [0xFF] (.error .invalidUtf8 1)] := by
  have hlength : Utf8.validLength (blockOpen ++ [0xFF]) = 2 := by cbv
  have hshort : Utf8.validLength (blockOpen ++ [0xFF]) < (blockOpen ++ [0xFF]).length := by
    rw [hlength]
    decide
  have hlex := (lex_illFormed_tail hshort).1
  rw [hlength] at hlex
  exact ⟨hshort, hlex⟩

end Burghard

end WhitespaceAsm

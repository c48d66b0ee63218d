import WhitespaceAsm.Proofs.Faithful
import WhitespaceAsm.Proofs.Numeral.Signed
import WhitespaceAsm.Proofs.WholeCharacters

/-!
# Ill-formed text in voliva programs

A word, a literal or a comment is flagged when its text is not well-formed. For a literal the flag
comes from reading its escapes, where an escaped unit is taken apart from its backslash; and the
value that is read is well-formed, because a replacement character stands for each ill-formed unit.

* **`Token.flagsInvalidUtf8`**: the flag of a token; `Token.FlagsIllFormed`: it is exact;
* `Unescaped.Reads`, **`unescape_reads`**: the value of a literal;
* `next_flags`, **`invalidUtf8_flags`**: all tokens of a program.
-/

namespace WhitespaceAsm

/-- **The token is flagged as ill-formed.** Only words, literals and comments have such a flag. -/
def Token.flagsInvalidUtf8 : Token → Bool
  | .plain _ (.word errors) => WordError.invalidUtf8 ∈ errors
  | .plain _ (.string s) => StringError.invalidUtf8 ∈ s.errors
  | .plain _ (.char c) => CharError.invalidUtf8 ∈ c.errors
  | .plain _ (.lineComment c) => LineCommentError.invalidUtf8 ∈ c.errors
  | _ => false

/-- **A token whose flag is exact**, and whose value is well-formed in any case if it is a
string. -/
structure Token.FlagsIllFormed (t : Token) : Prop where
  flag : t.flagsInvalidUtf8 = !Utf8.isValid t.text
  value : ∀ text s, t = .plain text (.string s) → Utf8.isValid s.unescaped

theorem Token.flagsIllFormed_of_kind {t : Token} (hflag : t.flagsInvalidUtf8 = !Utf8.isValid t.text)
    (hkind : t.kind ≠ .string) : t.FlagsIllFormed where
  flag := hflag
  value := by
    rintro text s rfl
    exact absurd rfl hkind

namespace Voliva

/-! ## Escapes -/

theorem isValidChar_of_escaped? {quote : UInt8} {c d : Nat} (h : escaped? quote c = some d) :
    d.isValidChar := by
  have hlt : d < 0x80 := by
    unfold escaped? at h
    split_ifs at h <;> simp only [Option.some.injEq] at h <;> omega
  exact .inl (by omega)

/-- **What is read from the body of a literal**: a well-formed value, with a flag when the body is
not well-formed. -/
structure Unescaped.Reads (u : Unescaped) (s : Bytes) : Prop where
  value : Utf8.isValid u.value
  invalidUtf8 : u.invalidUtf8 = !Utf8.isValid s

namespace Unescaped.Reads

variable {u : Unescaped} {b : UInt8} {rest : Bytes}

theorem afterChar (h : u.Reads (rest.drop ((Utf8.decode (b :: rest)).length - 1)))
    (hvalid : (Utf8.decode (b :: rest)).valid) {c : Nat} (hc : c.isValidChar) :
    (u.afterChar c).Reads (b :: rest) where
  value := Utf8.isValid_append (Utf8.isValid_encode hc) h.value
  invalidUtf8 := by
    rw [Utf8.isValid_cons, hvalid, Bool.true_and]
    exact h.invalidUtf8

theorem afterIllFormed (h : u.Reads (rest.drop ((Utf8.decode (b :: rest)).length - 1)))
    (hvalid : ¬ (Utf8.decode (b :: rest)).valid) : u.afterIllFormed.Reads (b :: rest) where
  value := Utf8.isValid_append (Utf8.isValid_encode (by decide)) h.value
  invalidUtf8 := by
    rw [Utf8.isValid_cons, Bool.eq_false_iff.2 hvalid]
    rfl

theorem afterBadEscape {s : Bytes} (h : u.Reads s) : u.afterBadEscape.Reads s :=
  ⟨h.value, h.invalidUtf8⟩

theorem backslash (h : u.Reads rest) (hvalid : (Utf8.decode (b :: rest)).valid)
    (hbackslash : (Utf8.decode (b :: rest)).codePoint = 0x5C) : u.Reads (b :: rest) where
  value := h.value
  invalidUtf8 := by
    have hlength := Utf8.length_eq_one_of_valid hvalid (by omega)
    rw [Utf8.isValid_cons, hvalid, hlength, Nat.sub_self, List.drop_zero, Bool.true_and]
    exact h.invalidUtf8

end Unescaped.Reads

theorem unescape_reads (quote : UInt8) (s : Bytes) : (unescape quote s).Reads s := by
  fun_induction unescape quote s with
  | case1 => exact ⟨Utf8.isValid_nil, by rw [Utf8.isValid_nil]; rfl⟩
  | case2 b rest c hill ih => exact ih.afterIllFormed hill
  | case3 b rest c hvalid hplain ih =>
    exact ih.afterChar (not_not.1 hvalid) (Utf8.isValidChar_of_valid (not_not.1 hvalid))
  | case4 b c hvalid hbackslash =>
    have hlone : Unescaped.Reads { value := [Ascii.backslash], invalidEscape := true } [] :=
      ⟨Utf8.isValid_byte (by decide), by rw [Utf8.isValid_nil]; rfl⟩
    exact hlone.backslash (not_not.1 hvalid) (not_not.1 hbackslash)
  | case5 b e more d after hill c hvalid hbackslash ih =>
    exact (ih.afterIllFormed hill).afterBadEscape.backslash (not_not.1 hvalid)
      (not_not.1 hbackslash)
  | case6 b e more d after hunit value hescape c hvalid hbackslash ih =>
    have hescaped := ih.afterChar (not_not.1 hunit) (isValidChar_of_escaped? hescape)
    exact hescaped.backslash (not_not.1 hvalid) (not_not.1 hbackslash)
  | case7 b e more d after hunit hescape c hvalid hbackslash ih =>
    have hescaped :=
      ih.afterChar (not_not.1 hunit) (Utf8.isValidChar_of_valid (not_not.1 hunit))
    exact hescaped.afterBadEscape.backslash (not_not.1 hvalid) (not_not.1 hbackslash)

/-! ## Tokens -/

theorem readString_flags (rest : Bytes) : (readString rest).FlagsIllFormed := by
  let body := quotedBody Ascii.doubleQuote rest
  have hreads := unescape_reads Ascii.doubleQuote body
  refine ⟨?_, ?_⟩
  · have htext : Utf8.isValid (readString rest).text = Utf8.isValid body :=
      Utf8.isValid_quoted_iff (by decide) _ _
    rw [htext, ← hreads.invalidUtf8]
    simp [readString, Token.flagsInvalidUtf8, FlagSet.mem_union, mem_flagIf_iff, body]
  · rintro text s ⟨⟩
    exact hreads.value

theorem readChar_flags (rest : Bytes) : (readChar rest).FlagsIllFormed := by
  let body := quotedBody Ascii.singleQuote rest
  have hreads := unescape_reads Ascii.singleQuote body
  refine Token.flagsIllFormed_of_kind ?_ TokenKind.noConfusion
  have htext : Utf8.isValid (readChar rest).text = Utf8.isValid body :=
    Utf8.isValid_quoted_iff (by decide) _ _
  rw [htext, ← hreads.invalidUtf8]
  simp [readChar, Token.flagsInvalidUtf8, FlagSet.mem_union, mem_flagIf_iff, body]

theorem flagsIllFormed_plain {text : Bytes} {p : Payload} (h : Utf8.isValid text)
    (hp : (Token.plain text p).flagsInvalidUtf8 = false) (hkind : p.kind ≠ .string) :
    (Token.plain text p).FlagsIllFormed := by
  refine Token.flagsIllFormed_of_kind ?_ hkind
  rw [hp, Token.text, h]
  rfl

theorem wordToken_flags (text : Bytes) : (wordToken text).FlagsIllFormed := by
  unfold wordToken
  dsimp only
  split
  · next hinteger =>
    have herrors : (Numeral.parse .voliva text).errors = ∅ := by
      simpa [Numeral.hasError, FlagSet.isEmpty_iff] using hinteger.1
    have hsigned := Numeral.signed_of_parse (by decide) (by decide) herrors
    have hvalid := Utf8.isValid_of_forall_lt hsigned.lt
    exact flagsIllFormed_plain hvalid rfl TokenKind.noConfusion
  · refine Token.flagsIllFormed_of_kind ?_ TokenKind.noConfusion
    simp [Token.flagsInvalidUtf8, Token.text, mem_flagIf_iff]

theorem checkedComment_flags (n : Nat) (s : Bytes) :
    (Token.checkedComment n s).FlagsIllFormed := by
  refine Token.flagsIllFormed_of_kind ?_ TokenKind.noConfusion
  simp [Token.checkedComment, Token.flagsInvalidUtf8, Token.text, mem_flagIf_iff]

theorem next_flags (b : UInt8) (rest : Bytes) : (next b rest).FlagsIllFormed := by
  refine next_classes b rest ?_ ?_ ?_ ?_ ?_ ?_
  · exact fun _ => readString_flags rest
  · exact fun _ => readChar_flags rest
  · exact checkedComment_flags 1 _
  · intro _
    exact flagsIllFormed_plain (Utf8.isValid_byte (by decide)) rfl TokenKind.noConfusion
  · intro _
    exact flagsIllFormed_plain (Utf8.run_takeChars isSpace _).isValid rfl TokenKind.noConfusion
  · exact wordToken_flags _

/-- **The flags for ill-formed text are exact**, and the value of every string is well-formed. -/
theorem invalidUtf8_flags (src : Bytes) :
    (∀ t ∈ lex src, t.flagsInvalidUtf8 ↔ ¬ Utf8.isValid t.text) ∧
    (Utf8.isValid src ↔ ∀ t ∈ lex src, ¬ t.flagsInvalidUtf8) ∧
    ∀ text s, .plain text (.string s) ∈ lex src → Utf8.isValid s.unescaped := by
  have hflags : ∀ t ∈ lex src, t.FlagsIllFormed :=
    forall_mem_tokenize next_readsStart next_flags src
  have hflag : ∀ t ∈ lex src, t.flagsInvalidUtf8 ↔ ¬ Utf8.isValid t.text := by
    intro t ht
    rw [(hflags t ht).flag, Bool.not_eq_true, Bool.not_eq_true']
  refine ⟨hflag, ⟨fun h t ht => ?_, fun h => ?_⟩, fun text s hs => (hflags _ hs).value text s rfl⟩
  · rw [hflag t ht, not_not]
    exact (forall_mem_tokenize_of_isValid next_readsStart next_keepsCharacters h t ht).text
  · have htexts : texts (lex src) = src := texts_tokenize next_readsStart src
    rw [← htexts]
    exact isValid_texts fun t ht => not_not.1 fun hill => h t ht ((hflag t ht).2 hill)

end Voliva

end WhitespaceAsm

import Mathlib.Data.List.TakeWhile
import WhitespaceAsm.Palaiologos.Lex
import WhitespaceAsm.Proofs.ByteTrie
import WhitespaceAsm.Proofs.Comment
import WhitespaceAsm.Proofs.Lexing
import WhitespaceAsm.Proofs.Quoted

/-!
# The tokens of Palaiologos programs

* `readMnemonic_cases`, `readInteger_cases`, `next_classes`: the tokens by the rules that read them;
  **`next_cases`**: the tokens by what the parser asks of them; `next_readsStart`, `next_isRaw`,
  `plain_of_mem_lex`;
* **`next_append_lf`**: no token goes on after its line.
-/

namespace WhitespaceAsm.Palaiologos

/-! ## Mnemonics -/

theorem mnemonics_keyword {key : Bytes} {value : List Signature}
    (h : mnemonics.value? key = some value) : key ≠ [] ∧ Ascii.lf ∉ key ∧ value ≠ [] := by
  obtain ⟨e, he, rfl, rfl⟩ := ByteTrie.value?_ofList h
  suffices hkeyword : e.1 ≠ [] ∧ Ascii.lf ∉ e.1 ∧ e.2 ≠ [] from
    ⟨CaseFold.fold_ne_nil hkeyword.1, fun hlf => hkeyword.2.1 (CaseFold.lf_mem_of_fold hlf),
      hkeyword.2.2⟩
  clear h
  revert e
  decide

theorem lt_of_get?_eq_some {text : Bytes} {value : List Signature}
    (h : mnemonics.get? text = some value) : ∀ c ∈ text, c < 0x80 := by
  rw [ByteTrie.get?_eq] at h
  obtain ⟨e, he, hfold, -⟩ := ByteTrie.value?_ofList h
  have hmode : mnemonics.mode = .ascii := ByteTrie.mode_ofList _ _
  rw [hmode, CaseFold.fold_ascii, CaseFold.fold_ascii] at hfold
  have hkeyword : (e.1.map Ascii.toLower).all (· < 0x80) := by
    clear h hfold
    revert e
    decide +kernel
  intro c hc
  rw [hfold, List.all_eq_true] at hkeyword
  have hlower := hkeyword _ (List.mem_map_of_mem hc)
  exact CaseFold.lt_of_toLower_lt (of_decide_eq_true hlower)

section LongestMatch

variable {s : Bytes} {found : ByteTrie.Match (List Signature)}
  (h : mnemonics.longestMatch? s = some found)

include h

/-- **The text of the longest match is a mnemonic on its own.** -/
theorem get?_take_longestMatch : mnemonics.get? (s.take found.length) = some found.value := by
  rw [ByteTrie.get?_eq]
  exact (ByteTrie.longestMatch?_eq_some h).2

theorem longestMatch_length_ne_zero : found.length ≠ 0 := by
  intro h0
  have hvalue := (ByteTrie.longestMatch?_eq_some h).2
  rw [h0, List.take_zero, CaseFold.fold] at hvalue
  exact (mnemonics_keyword hvalue).1 rfl

theorem longestMatch_length_le : found.length ≤ s.length :=
  (ByteTrie.longestMatch?_eq_some h).1

end LongestMatch

/-! ## Classes of bytes -/

section Bytes

variable {b : UInt8}

theorem lt_of_isMnemonicByte (h : isMnemonicByte b) : b < 0x80 := by
  simp only [isMnemonicByte, Bool.or_eq_true, beq_iff_eq] at h
  obtain h | rfl := h
  · exact Ascii.lt_of_isLetter h
  · decide

theorem lt_of_isDigitByte (h : isDigitByte b) : b < 0x80 := by
  grind [isDigitByte, Ascii.isHexDigit, Ascii.isDigit]

theorem lt_of_isBaseSuffix (h : isBaseSuffix b) : b < 0x80 := by
  grind [isBaseSuffix]

theorem lt_of_isSpace (h : isSpace b) : b < 0x80 := by
  grind [isSpace]

theorem lt_of_startsToken (h : startsToken b) : b < 0x80 := by
  simp only [startsToken, Bool.or_eq_true, beq_iff_eq, or_assoc] at h
  obtain h | h | h | h := h
  · exact lt_of_isMnemonicByte h
  · exact Ascii.lt_of_isDigit h
  · exact lt_of_isSpace h
  · grind

end Bytes

/-! ## Classes of tokens -/

theorem hexInteger?_spec {s text : Bytes} (h : hexInteger? s = some text) (p : Payload) :
    (Token.plain text p).Starts s ∧ ∀ c ∈ text, c < 0x80 := by
  have hdigits : s.takeWhile isDigitByte <+: s := List.takeWhile_prefix _
  unfold hexInteger? at h
  dsimp only at h
  split at h
  · next b hb =>
    split at h
    · next hsuffix =>
      rw [← Option.some.inj h]
      obtain ⟨more, hmore⟩ := List.head?_eq_some_iff.1 hb
      refine ⟨⟨List.append_ne_nil_of_right_ne_nil _ (List.cons_ne_nil _ _), ?_⟩, ?_⟩
      · refine append_isPrefix hdigits ?_
        rw [hmore]
        exact ⟨more, rfl⟩
      · refine List.forall_mem_append.2
          ⟨fun c hc => lt_of_isDigitByte (List.mem_takeWhile_imp hc), ?_⟩
        obtain rfl | rfl := hsuffix
        · exact List.forall_mem_singleton.2 (by decide)
        · exact List.forall_mem_singleton.2 (by decide)
    · cases h
  · cases h

theorem readMnemonic_cases {motive : Token → Prop} (b : UInt8) (rest : Bytes)
    (found : ∀ m, mnemonics.longestMatch? (b :: rest) = some m →
      motive (.plain ((b :: rest).take m.length)
        (.mnemonic ((m.value.head?.map (·.opcode)).getD .invalid))))
    (integer : ∀ text, (integerToken text).Starts (b :: rest) → (∀ c ∈ text, c < 0x80) →
      motive (integerToken text))
    (unknown : motive (.plain (b :: takeUntil endsInvalid rest) (.mnemonic .invalid))) :
    motive (readMnemonic b rest) := by
  unfold readMnemonic
  split
  · next m hm => exact found m hm
  · split
    · next text htext =>
      split at htext
      · obtain ⟨hstarts, hlt⟩ := hexInteger?_spec htext _
        exact integer text hstarts hlt
      · cases htext
    · exact unknown

theorem readInteger_cases {motive : Token → Prop} {b : UInt8} (rest : Bytes)
    (hb : Ascii.isDigit b || b == Ascii.minus || b == Ascii.plus)
    (integer : ∀ text, (integerToken text).Starts (b :: rest) → (∀ c ∈ text, c < 0x80) →
      motive (integerToken text))
    (sign : b < 0x80 → motive (.plain [b] (.error .unrecognizedChar 0))) :
    motive (readInteger b rest) := by
  have hlt : b < 0x80 := by
    simp only [Bool.or_eq_true, beq_iff_eq] at hb
    obtain (hb | rfl) | rfl := hb
    · exact Ascii.lt_of_isDigit hb
    · decide
    · decide
  have hdigits : rest.takeWhile isDigitByte <+: rest := List.takeWhile_prefix _
  have hinteger := append_isPrefix hdigits
    ((List.take_prefix 1 _).trans (List.takeWhile_prefix isBaseSuffix))
  unfold readInteger
  dsimp only
  split
  · next hsign =>
    rw [hsign.2]
    exact sign hlt
  · refine integer _ (Token.starts_plain b _ hinteger) (List.forall_mem_cons.2 ⟨hlt, ?_⟩)
    refine List.forall_mem_append.2 ⟨fun c hc => ?_, fun c hc => ?_⟩
    · exact lt_of_isDigitByte (List.mem_takeWhile_imp hc)
    · exact lt_of_isBaseSuffix (List.mem_takeWhile_imp (List.mem_of_mem_take hc))

/-- **The tokens of the dialect**, each with what stands at the start of the text. -/
theorem next_classes {motive : Token → Prop} (b : UInt8) (rest : Bytes)
    (found : ∀ m, mnemonics.longestMatch? (b :: rest) = some m →
      motive (.plain ((b :: rest).take m.length)
        (.mnemonic ((m.value.head?.map (·.opcode)).getD .invalid))))
    (unknown : isMnemonicByte b →
      motive (.plain (b :: takeUntil endsInvalid rest) (.mnemonic .invalid)))
    (integer : ∀ text, (integerToken text).Starts (b :: rest) → (∀ c ∈ text, c < 0x80) →
      motive (integerToken text))
    (sign : b < 0x80 → motive (.plain [b] (.error .unrecognizedChar 0)))
    (label : b < 0x80 → motive (readLabel b rest))
    (char : b = Ascii.singleQuote → motive (readChar rest))
    (string : b = Ascii.doubleQuote → motive (readString rest))
    (comment : motive (Token.lineComment 1 (b :: rest)))
    (byte : ∀ p ∈ [Payload.argSep ∅, .instSep .slash, .lineTerm .lf], b < 0x80 →
      motive (.plain [b] p))
    (space : isSpace b → motive (.plain (b :: rest.takeWhile isSpace) .space))
    (unrecognized : motive (readUnrecognized b rest)) : motive (next b rest) := by
  have hlabel : b = Ascii.atSign ∨ b = Ascii.percent → b < 0x80 := by
    rintro (rfl | rfl)
    · decide
    · decide
  have hbyte : ∀ p ∈ [Payload.argSep ∅, .instSep .slash, .lineTerm .lf], ∀ c, c < 0x80 → b = c →
      motive (.plain [b] p) := by
    rintro p hp c hc rfl
    exact byte p hp hc
  unfold next
  -- one test of the rule after the other, in its order
  refine iteInduction (fun hb => readMnemonic_cases b rest found integer (unknown hb)) fun _ => ?_
  refine iteInduction (fun hb => readInteger_cases rest hb integer sign) fun _ => ?_
  refine iteInduction (fun hb => label (hlabel hb)) fun _ => ?_
  refine iteInduction char fun _ => ?_
  refine iteInduction string fun _ => ?_
  refine iteInduction (fun _ => comment) fun _ => ?_
  refine iteInduction (hbyte _ (by decide) _ (by decide)) fun _ => ?_
  refine iteInduction (hbyte _ (by decide) _ (by decide)) fun _ => ?_
  refine iteInduction (hbyte _ (by decide) _ (by decide)) fun _ => ?_
  exact iteInduction space fun _ => unrecognized

theorem next_cases {motive : Token → Prop} (b : UInt8) (rest : Bytes)
    (mnemonic : ∀ text opcode, (Token.plain text (.mnemonic opcode)).Starts (b :: rest) →
      (mnemonics.get? text = none → opcode = .invalid) → motive (.plain text (.mnemonic opcode)))
    (other : ∀ text p, (Token.plain text p).Starts (b :: rest) → p.kind ∉ [.mnemonic, .endOfInput] →
      motive (.plain text p)) : motive (next b rest) := by
  refine next_classes b rest ?_ ?_ ?_ ?_ ?_ ?_ ?_ ?_ ?_ ?_ ?_
  · intro m hm
    refine mnemonic _ _ ⟨?_, List.take_prefix _ _⟩ ?_
    · simpa [Token.text] using longestMatch_length_ne_zero hm
    · rw [get?_take_longestMatch hm]
      intro hnone
      cases hnone
  · exact fun _ => mnemonic _ _ (Token.starts_plain b _ (takeUntil_isPrefix _ _)) fun _ => rfl
  · exact fun text h _ => other text _ h (by simp [Payload.kind])
  · exact fun _ => other _ _ (Token.starts_byte b rest _) (by simp [Payload.kind])
  · exact fun _ => other _ _ (Token.starts_plain b _ ( List.takeWhile_prefix _))
      (by simp [Payload.kind])
  · rintro rfl
    exact other _ _ ⟨List.cons_ne_nil _ _, quoted_isPrefix _ rest⟩ (by simp [Payload.kind])
  · rintro rfl
    exact other _ _ ⟨List.cons_ne_nil _ _, quoted_isPrefix _ rest⟩ (by simp [Payload.kind])
  · exact other _ _ (Token.starts_lineComment (by decide) b rest) (by simp [Payload.kind])
  · intro p hp _
    refine other _ p (Token.starts_byte b rest p) ?_
    obtain rfl | rfl | rfl : p = .argSep ∅ ∨ p = .instSep .slash ∨ p = .lineTerm .lf := by
      simpa using hp
    · simp [Payload.kind]
    · simp [Payload.kind]
    · simp [Payload.kind]
  · exact fun _ => other _ _ (Token.starts_plain b _ ( List.takeWhile_prefix _))
      (by simp [Payload.kind])
  · exact other _ _ (Token.starts_plain b _ ( List.takeWhile_prefix _)) (by simp [Payload.kind])

theorem next_readsStart : ReadsStart next := by
  intro b rest
  refine next_cases (motive := fun t => t.Starts (b :: rest)) b rest ?_ ?_
  · exact fun _ _ h _ => h
  · exact fun _ _ h _ => h

theorem next_isRaw (b : UInt8) (rest : Bytes) : (next b rest).IsRaw := by
  refine next_cases b rest ?_ ?_
  · intro text opcode _ _
    exact Token.isRaw_plain text (by simp [Payload.kind])
  · intro text p _ hp
    refine Token.isRaw_plain text fun hend => hp ?_
    simp [hend]

theorem plain_of_mem_lex {src : Bytes} {t : Token} (h : t ∈ lex src) :
    ∃ text p, t = .plain text p ∧
      ∀ opcode, p = .mnemonic opcode → mnemonics.get? text = none → opcode = .invalid := by
  refine forall_mem_tokenize next_readsStart (P := fun t => ∃ text p, t = .plain text p ∧
    ∀ opcode, p = .mnemonic opcode → mnemonics.get? text = none → opcode = .invalid)
    (fun b rest => ?_) src t h
  refine next_cases (motive := fun t => ∃ text p, t = .plain text p ∧
    ∀ opcode, p = .mnemonic opcode → mnemonics.get? text = none → opcode = .invalid) b rest ?_ ?_
  · intro text opcode _ hnone
    refine ⟨text, _, rfl, fun opcode' heq hget => ?_⟩
    cases heq
    exact hnone hget
  · intro text p _ hp
    refine ⟨text, p, rfl, fun opcode heq _ => absurd ?_ hp⟩
    rw [heq]
    exact List.mem_cons_self

/-! ## Line by line -/

theorem next_lf (rest : Bytes) : next Ascii.lf rest = Token.lineFeed := rfl

theorem longestMatch?_append_lf (s t : Bytes) :
    mnemonics.longestMatch? (s ++ Ascii.lf :: t) = mnemonics.longestMatch? s :=
  (ByteTrie.sound_ofList _ _).longestMatch?_append_lf (fun _ _ h => (mnemonics_keyword h).2.1) s t

theorem hexInteger?_append_lf (s t : Bytes) :
    hexInteger? (s ++ Ascii.lf :: t) = hexInteger? s := by
  unfold hexInteger?
  dsimp only
  rw [takeWhile_append_lf s t (p := isDigitByte) (by decide),
    drop_append_lf ( List.takeWhile_prefix isDigitByte)]
  cases s.drop (s.takeWhile isDigitByte).length with
  | nil => rfl
  | cons b more => rfl

theorem endsInvalid_append_lf (b : UInt8) (s t : Bytes) :
    endsInvalid (b :: (s ++ Ascii.lf :: t)) = endsInvalid (b :: s) := by
  rw [endsInvalid, endsInvalid, ← List.cons_append, longestMatch?_append_lf]
  rfl

theorem endsInvalid_lf (t : Bytes) : endsInvalid (Ascii.lf :: t) = true := by
  rw [endsInvalid]
  rfl

theorem readMnemonic_append_lf (b : UInt8) (rest t : Bytes) :
    readMnemonic b (rest ++ Ascii.lf :: t) = readMnemonic b rest := by
  have hmatch := longestMatch?_append_lf (b :: rest) t
  have hhex := hexInteger?_append_lf (b :: rest) t
  rw [List.cons_append] at hmatch hhex
  unfold readMnemonic
  rw [hmatch, hhex, takeUntil_append_lf rest t endsInvalid endsInvalid_lf
    (fun b s => endsInvalid_append_lf b s t)]
  cases hfound : mnemonics.longestMatch? (b :: rest) with
  | none => rfl
  | some found =>
    dsimp only
    rw [← List.cons_append, List.take_append_of_le_length (longestMatch_length_le hfound)]

theorem readInteger_append_lf (b : UInt8) (rest t : Bytes) :
    readInteger b (rest ++ Ascii.lf :: t) = readInteger b rest := by
  unfold readInteger
  dsimp only
  rw [takeWhile_append_lf rest t (p := isDigitByte) (by decide),
    drop_append_lf ( List.takeWhile_prefix isDigitByte),
    takeWhile_append_lf _ t (p := isBaseSuffix) (by decide)]

theorem readLabel_append_lf (sigil : UInt8) (rest t : Bytes) :
    readLabel sigil (rest ++ Ascii.lf :: t) = readLabel sigil rest := by
  rw [readLabel, readLabel, takeWhile_append_lf rest t (p := Ascii.isIdentifier) (by decide)]

theorem readChar_append_lf (rest t : Bytes) :
    readChar (rest ++ Ascii.lf :: t) = readChar rest := by
  rw [readChar, readChar, quotedBody_append_lf, closingQuote_drop_append_lf (by decide)]

theorem readString_append_lf (rest t : Bytes) :
    readString (rest ++ Ascii.lf :: t) = readString rest := by
  rw [readString, readString, quotedBody_append_lf, closingQuote_drop_append_lf (by decide)]

theorem next_append_lf (b : UInt8) (rest t : Bytes) :
    next b (rest ++ Ascii.lf :: t) = next b rest := by
  have hcomment := Token.lineComment_append_lf (n := 1) (s := b :: rest) (by simp) t
  rw [List.cons_append] at hcomment
  unfold next readUnrecognized
  rw [readMnemonic_append_lf, readInteger_append_lf, readLabel_append_lf, readChar_append_lf,
    readString_append_lf, hcomment, takeWhile_append_lf rest t (p := isSpace) (by decide),
    takeWhile_append_lf rest t (p := fun c => !startsToken c) (by decide)]

end WhitespaceAsm.Palaiologos

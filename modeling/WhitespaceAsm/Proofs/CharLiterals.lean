import WhitespaceAsm.Proofs.Palaiologos.Lex
import WhitespaceAsm.Proofs.Voliva.InvalidUtf8
import WhitespaceAsm.Proofs.Voliva.Unescape

/-!
# Character literals

A character literal has no error when there is one character between its quotes, as it is or as an
escape. In a Palaiologos program a character is a byte, and every byte but a line feed may stand
behind a backslash; in a voliva program it is a code point, and only some characters may.

* **`Token.IsCharLiteral`**: a literal that has no error for some characters only;
* **`Palaiologos.CharBody`**, **`Voliva.CharBody`**: what may stand between the quotes, with the
  value of the literal;
* **`lex_charLiteral`**: a program that begins with a single quote.
-/

namespace WhitespaceAsm

/-- **The escapes of control characters**: the byte behind the backslash and the one it stands
for. -/
def controlEscapes : List (UInt8 × UInt8) :=
  [(0x62, 0x08), (0x66, Ascii.formFeed), (0x6E, Ascii.lf), (0x72, Ascii.cr), (0x74, Ascii.tab),
    (0x76, Ascii.verticalTab)]

/-- **A character literal that is accepted exactly**: it has no error when its text is one of the
characters between quotes, and then it has the value of that character. -/
def Token.IsCharLiteral (charBody : Bytes → Nat → Prop) (t : Token) : Prop :=
  ∃ text lit, t = .plain text (.char lit) ∧
    ∀ v, lit.errors = ∅ ∧ lit.value = v ↔
      ∃ body, charBody body v ∧ text = [Ascii.singleQuote] ++ body ++ [Ascii.singleQuote]

/-! ## Palaiologos -/

namespace Palaiologos

/-- The escapes of control characters, with one for the bell. -/
def escapes : List (UInt8 × UInt8) := (0x61, 0x07) :: controlEscapes

/-- **A character between its quotes** with its value: a byte, or a backslash in front of a byte,
which stands for itself unless it is the escape of a control character. -/
inductive CharBody : Bytes → Nat → Prop
  | byte {b : UInt8} (hquote : b ≠ Ascii.singleQuote) (hbackslash : b ≠ Ascii.backslash)
      (hlf : b ≠ Ascii.lf) : CharBody [b] b.toNat
  | control {b value : UInt8} (h : (b, value) ∈ escapes) :
      CharBody [Ascii.backslash, b] value.toNat
  | escape {b : UInt8} (hlf : b ≠ Ascii.lf) (h : b ∉ escapes.map Prod.fst) :
      CharBody [Ascii.backslash, b] b.toNat

theorem unescape_of_mem {b value : UInt8} (h : (b, value) ∈ escapes) :
    b ≠ Ascii.lf ∧ unescape b = value := by
  have hall : escapes.all fun p => p.1 ≠ Ascii.lf ∧ unescape p.1 = p.2 := by decide
  exact of_decide_eq_true (List.all_eq_true.1 hall _ h)

theorem unescape_of_notMem {b : UInt8} (h : b ∉ escapes.map Prod.fst) : unescape b = b := by
  simp only [escapes, controlEscapes, List.map_cons, List.map_nil, List.mem_cons, not_or] at h
  simp [unescape, h]

theorem charBody_escape {b : UInt8} (hlf : b ≠ Ascii.lf) :
    CharBody [Ascii.backslash, b] (unescape b).toNat := by
  by_cases h : b ∈ escapes.map Prod.fst
  · obtain ⟨⟨b, value⟩, hmem, rfl⟩ := List.mem_map.1 h
    rw [(unescape_of_mem hmem).2]
    exact .control hmem
  · rw [unescape_of_notMem h]
    exact .escape hlf h

theorem CharBody.quotedBytes {body : Bytes} {v : Nat} (h : CharBody body v) :
    QuotedBytes Ascii.singleQuote body := by
  cases h with
  | byte hquote hbackslash hlf => exact .byte hquote hbackslash hlf .nil
  | control h => exact .escape (unescape_of_mem h).1 .nil
  | escape hlf _ => exact .escape hlf .nil

/-- What is read from a byte, or from an escape that stands for `value`, with more behind it. -/
def coreValue (value b : UInt8) (more : Bytes) : Nat × FlagSet CharError :=
  let c := Utf8.decode (b :: more)
  if c.valid ∧ 0x80 ≤ c.codePoint then
    (c.codePoint, if c.length = more.length + 1 then {.unexpectedUnicode} else {.moreThanOne})
  else (value.toNat, flagIf (more ≠ []) .moreThanOne)

theorem charValue_cons {b : UInt8} (hb : b ≠ Ascii.backslash) (more : Bytes) :
    charValue (b :: more) = coreValue b b more := by
  simp [charValue, coreValue, hb]

theorem charValue_escape (b : UInt8) (more : Bytes) :
    charValue (Ascii.backslash :: b :: more) = coreValue (unescape b) b more := by
  simp [charValue, coreValue]

theorem coreValue_nil (value b : UInt8) : coreValue value b [] = (value.toNat, ∅) := by
  have hascii : ¬ ((Utf8.decode [b]).valid ∧ 0x80 ≤ (Utf8.decode [b]).codePoint) := by
    rintro ⟨hvalid, hle⟩
    obtain ⟨c, t, hc, htext⟩ := Utf8.exists_encode_of_valid hvalid
    rw [htext, Utf8.decode_encode hc] at hle
    have hlong : 2 ≤ (Utf8.encode c).length := Utf8.two_le_length_encode hle
    have hlength := congrArg List.length htext
    rw [List.length_append, List.length_singleton] at hlength
    omega
  rw [coreValue, if_neg hascii, flagIf_eq_empty (not_not.2 rfl)]

theorem eq_nil_of_coreValue {value b : UInt8} {more : Bytes}
    (h : (coreValue value b more).2 = ∅) : more = [] := by
  unfold coreValue at h
  dsimp only at h
  split at h
  · split at h
    · exact absurd h (FlagSet.singleton_ne_empty _)
    · exact absurd h (FlagSet.singleton_ne_empty _)
  · exact not_not.1 (not_of_flagIf_eq_empty h)

theorem charValue_of_charBody {body : Bytes} {v : Nat} (h : CharBody body v) :
    charValue body = (v, ∅) := by
  cases h with
  | byte hquote hbackslash hlf => rw [charValue_cons hbackslash, coreValue_nil]
  | control h => rw [charValue_escape, coreValue_nil, (unescape_of_mem h).2]
  | escape hlf h => rw [charValue_escape, coreValue_nil, unescape_of_notMem h]

theorem charBody_of_charValue {body : Bytes} (hbody : QuotedBytes Ascii.singleQuote body)
    (h : (charValue body).2 = ∅) : CharBody body (charValue body).1 := by
  cases hbody with
  | nil => exact absurd h (FlagSet.singleton_ne_empty _)
  | byte hquote hbackslash hlf _ =>
    rw [charValue_cons hbackslash] at h ⊢
    obtain rfl := eq_nil_of_coreValue h
    rw [coreValue_nil]
    exact .byte hquote hbackslash hlf
  | escape hlf _ =>
    rw [charValue_escape] at h ⊢
    obtain rfl := eq_nil_of_coreValue h
    rw [coreValue_nil]
    exact charBody_escape hlf

theorem readChar_isCharLiteral (rest : Bytes) : (readChar rest).IsCharLiteral CharBody := by
  refine ⟨_, _, rfl, fun v => ?_⟩
  rw [exists_quoted_iff (by decide) (by decide) fun _ => CharBody.quotedBytes]
  constructor
  · rintro ⟨herrors, rfl⟩
    obtain ⟨hclosing, hvalue⟩ := FlagSet.union_eq_empty_iff.1 herrors
    have hclosing := not_of_flagIf_eq_empty hclosing
    have hbody := quotedBytes_quotedBody (by decide) hclosing
    exact ⟨charBody_of_charValue hbody hvalue, hclosing⟩
  · rintro ⟨hbody, hclosing⟩
    have hvalue := charValue_of_charBody hbody
    exact ⟨FlagSet.union_eq_empty_iff.2 ⟨flagIf_eq_empty hclosing, congrArg Prod.snd hvalue⟩,
      congrArg Prod.fst hvalue⟩

end Palaiologos

/-! ## Voliva -/

namespace Voliva

/-- The escapes in a character literal: the quote, the backslash and those of control
characters. -/
def escapes : List (UInt8 × UInt8) :=
  (Ascii.singleQuote, Ascii.singleQuote) :: (Ascii.backslash, Ascii.backslash) :: controlEscapes

/-- **A character between its quotes** with its value: the encoding of a code point, or an
escape. -/
inductive CharBody : Bytes → Nat → Prop
  | char {c : Nat} (hc : c.isValidChar) (hquote : c ≠ 0x27) (hbackslash : c ≠ 0x5C)
      (hlf : c ≠ 0x0A) : CharBody (Utf8.encode c) c
  | escape {b value : UInt8} (h : (b, value) ∈ escapes) :
      CharBody [Ascii.backslash, b] value.toNat

theorem escaped?_eq_some_iff {c d : Nat} : escaped? Ascii.singleQuote c = some d ↔
    ∃ b value, (b, value) ∈ escapes ∧ c = b.toNat ∧ d = value.toNat := by
  constructor
  · intro h
    have hmem : (UInt8.ofNat c, UInt8.ofNat d) ∈ escapes ∧ c < 0x80 ∧ d < 0x80 := by
      unfold escaped? at h
      split_ifs at h with hquote hsame
      · obtain rfl : c = 0x27 := hsame
        obtain rfl : 0x27 = d := Option.some.inj h
        decide
      all_goals
        subst c
        obtain rfl := Option.some.inj h
        decide
    obtain ⟨hmem, hc, hd⟩ := hmem
    have hofNat : ∀ n, n < 0x80 → n = (UInt8.ofNat n).toNat := fun n hn => by
      rw [UInt8.toNat_ofNat', Nat.mod_eq_of_lt (by omega)]
    exact ⟨_, _, hmem, hofNat c hc, hofNat d hd⟩
  · rintro ⟨b, value, h, rfl, rfl⟩
    have hall : escapes.all fun p =>
        escaped? Ascii.singleQuote p.1.toNat = some p.2.toNat := by decide
    exact of_decide_eq_true (List.all_eq_true.1 hall _ h)

theorem lt_of_mem_escapes {b value : UInt8} (h : (b, value) ∈ escapes) :
    b.toNat < 0x80 ∧ b ≠ Ascii.lf := by
  have hall : escapes.all fun p => p.1.toNat < 0x80 ∧ p.1 ≠ Ascii.lf := by decide
  exact of_decide_eq_true (List.all_eq_true.1 hall _ h)

theorem encode_of_mem_escapes {b value : UInt8} (h : (b, value) ∈ escapes) :
    Utf8.encode b.toNat = [b] := by
  rw [Utf8.encode_of_lt (lt_of_mem_escapes h).1, UInt8.ofNat_toNat]

theorem CharBody.quotedBytes {body : Bytes} {v : Nat} (h : CharBody body v) :
    QuotedBytes Ascii.singleQuote body := by
  cases h with
  | char hc hquote hbackslash hlf =>
    exact .of_notMem (Utf8.notMem_encode hc (by decide) hquote)
      (Utf8.notMem_encode hc (by decide) hbackslash) (Utf8.notMem_encode hc (by decide) hlf)
  | escape h => exact .escape (lt_of_mem_escapes h).2 .nil

theorem afterChar_unescape_nil (quote : UInt8) (v : Nat) :
    (unescape quote []).afterChar v = { value := Utf8.encode v } := by
  rw [unescape_nil, Unescaped.afterChar, List.append_nil]

theorem eq_nil_of_afterChar_eq {quote : UInt8} {c v : Nat} {t : Bytes} (hc : c.isValidChar)
    (hv : v.isValidChar) (h : (unescape quote t).afterChar c = { value := Utf8.encode v }) :
    c = v ∧ t = [] := by
  have hvalue : Utf8.encode c ++ (unescape quote t).value = Utf8.encode v :=
    congrArg Unescaped.value h
  obtain ⟨hcv, hnil⟩ := Utf8.eq_of_encode_append_eq hc hv hvalue
  exact ⟨hcv, (value_unescape_eq_nil_iff t).1 hnil⟩

theorem unescape_of_charBody {body : Bytes} {v : Nat} (h : CharBody body v) :
    v.isValidChar ∧ unescape Ascii.singleQuote body = { value := Utf8.encode v } := by
  rw [← afterChar_unescape_nil Ascii.singleQuote v]
  cases h with
  | char hc hquote hbackslash hlf =>
    refine ⟨hc, ?_⟩
    rw [← unescape_encode hc hbackslash, List.append_nil]
  | @escape b value h =>
    have hescape := escaped?_eq_some_iff.2 ⟨b, value, h, rfl, rfl⟩
    have hb : b.toNat.isValidChar := .inl ((lt_of_mem_escapes h).1.trans (by decide))
    refine ⟨isValidChar_of_escaped? hescape, ?_⟩
    rw [← unescape_escaped hb [] hescape, List.append_nil, encode_of_mem_escapes h]

theorem charBody_of_unescape {body : Bytes} {v : Nat}
    (hbody : QuotedBytes Ascii.singleQuote body) (hv : v.isValidChar)
    (h : unescape Ascii.singleQuote body = { value := Utf8.encode v }) : CharBody body v := by
  have hvalid : Utf8.isValid body := by
    have hflag := (unescape_reads Ascii.singleQuote body).invalidUtf8
    rw [h] at hflag
    simpa using hflag.symm
  have hne : body ≠ [] := fun hnil =>
    Utf8.encode_ne_nil v (by rw [← (value_unescape_eq_nil_iff body).2 hnil, h])
  obtain ⟨c, t, hc, ht, rfl⟩ := Utf8.exists_encode_of_isValid hvalid hne
  by_cases hbackslash : c = 0x5C
  · subst hbackslash
    change unescape Ascii.singleQuote (Ascii.backslash :: t) = _ at h
    change CharBody (Ascii.backslash :: t) v
    -- an escape is one that is known, since an unknown one and a lone backslash have a flag
    have htail : t ≠ [] := by
      rintro rfl
      rw [unescape_backslash] at h
      exact Bool.noConfusion (congrArg Unescaped.invalidEscape h)
    obtain ⟨d, t, hd, -, rfl⟩ := Utf8.exists_encode_of_isValid ht htail
    cases hescape : escaped? Ascii.singleQuote d with
    | none =>
      rw [unescape_unknown hd t hescape] at h
      exact Bool.noConfusion (congrArg Unescaped.invalidEscape h)
    | some value =>
      rw [unescape_escaped hd t hescape] at h
      obtain ⟨rfl, rfl⟩ := eq_nil_of_afterChar_eq (isValidChar_of_escaped? hescape) hv h
      obtain ⟨b, value, hmem, rfl, rfl⟩ := escaped?_eq_some_iff.1 hescape
      rw [List.append_nil, encode_of_mem_escapes hmem]
      exact .escape hmem
  · rw [unescape_encode hc hbackslash] at h
    obtain ⟨rfl, rfl⟩ := eq_nil_of_afterChar_eq hc hv h
    rw [List.append_nil] at hbody ⊢
    refine .char hc ?_ hbackslash ?_
    · rintro rfl
      exact (hbody.head_ne (by decide)).1 rfl
    · rintro rfl
      exact (hbody.head_ne (by decide)).2 rfl

/-- **A value that is one character** is what the errors of a literal leave. -/
theorem Unescaped.eq_encode_iff {u : Unescaped} (hvalid : Utf8.isValid u.value) {v : Nat} :
    ¬ u.invalidEscape ∧ ¬ u.invalidUtf8 ∧ ¬ u.value = [] ∧
        ¬ (Utf8.decode u.value).length < u.value.length ∧
        (if u.value = [] then 0 else (Utf8.decode u.value).codePoint) = v ↔
      v.isValidChar ∧ u = { value := Utf8.encode v } := by
  obtain ⟨value, invalidEscape, invalidUtf8⟩ := u
  constructor
  · rintro ⟨hescape, hill, hne, hone, hcode⟩
    obtain ⟨c, t, hc, -, rfl⟩ := Utf8.exists_encode_of_isValid hvalid hne
    simp only [Utf8.decode_encode hc, List.length_append, if_neg hne] at hone hcode
    obtain rfl : t = [] := List.eq_nil_of_length_eq_zero (by omega)
    obtain rfl : invalidEscape = false := Bool.eq_false_iff.2 hescape
    obtain rfl : invalidUtf8 = false := Bool.eq_false_iff.2 hill
    rw [← hcode, List.append_nil]
    exact ⟨hc, rfl⟩
  · rintro ⟨hv, hu⟩
    cases hu
    have hdecode := Utf8.decode_encode hv []
    rw [List.append_nil] at hdecode
    simp [hdecode, Utf8.encode_ne_nil]

theorem readChar_isCharLiteral (rest : Bytes) : (readChar rest).IsCharLiteral CharBody := by
  refine ⟨_, _, rfl, fun v => ?_⟩
  rw [exists_quoted_iff (by decide) (by decide) fun _ => CharBody.quotedBytes]
  have hvalid := (unescape_reads Ascii.singleQuote (quotedBody Ascii.singleQuote rest)).value
  simp only [FlagSet.union_eq_empty_iff, flagIf_eq_empty_iff, and_assoc]
  rw [Unescaped.eq_encode_iff hvalid]
  constructor
  · rintro ⟨hclosing, hv, hvalue⟩
    have hbody := quotedBytes_quotedBody (by decide) hclosing
    exact ⟨charBody_of_unescape hbody hv hvalue, hclosing⟩
  · rintro ⟨hbody, hclosing⟩
    exact ⟨hclosing, unescape_of_charBody hbody⟩

end Voliva

/-! ## Programs -/

/-- **A program that begins with a single quote** begins with a character literal. -/
theorem lex_charLiteral (rest : Bytes) :
    (∃ t ∈ (Palaiologos.lex (Ascii.singleQuote :: rest)).head?,
        t.IsCharLiteral Palaiologos.CharBody) ∧
      ∃ t ∈ (Voliva.lex (Ascii.singleQuote :: rest)).head?, t.IsCharLiteral Voliva.CharBody := by
  constructor
  · refine ⟨_, ?_, Palaiologos.readChar_isCharLiteral rest⟩
    rw [Palaiologos.lex, tokenize]
    rfl
  · refine ⟨_, ?_, Voliva.readChar_isCharLiteral rest⟩
    rw [Voliva.lex, tokenize]
    rfl

end WhitespaceAsm

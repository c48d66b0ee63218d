import WhitespaceAsm.Proofs.FlagSet
import WhitespaceAsm.Proofs.Palaiologos.Lex
import WhitespaceAsm.Proofs.Utf8.Boundary
import WhitespaceAsm.Proofs.Voliva.Lex
import WhitespaceAsm.Proofs.Voliva.Unescape

/-!
# Writing strings

Every string can be written as a literal: a backslash goes before each quote and each backslash, and
a line feed becomes an escape. What ends a literal and what its escapes stand for are decided by
different rules, which agree on literals that are written so.

* `stringBody`, **`writeString`**: the literal of a string; `stringToken`: the token of it;
* **`lex_writeString`**: a program that begins with the literal.
-/

namespace WhitespaceAsm

/-! ## Literals of strings -/

/-- A byte in a string literal. -/
def stringByte (b : UInt8) : Bytes :=
  if b = Ascii.doubleQuote then [Ascii.backslash, Ascii.doubleQuote]
  else if b = Ascii.backslash then [Ascii.backslash, Ascii.backslash]
  else if b = Ascii.lf then [Ascii.backslash, 0x6E]
  else [b]

/-- A string between the quotes of a literal. -/
def stringBody (s : Bytes) : Bytes := s.flatMap stringByte

/-- **The literal of a string.** -/
def writeString (s : Bytes) : Bytes := [Ascii.doubleQuote] ++ stringBody s ++ [Ascii.doubleQuote]

/-- The token of the literal of a string, without errors. -/
def stringToken (encoding : Encoding) (s : Bytes) : Token :=
  .plain (writeString s) (.string {
    literal := stringBody s
    unescaped := s
    encoding
    quotes := .double })

theorem stringByte_cases {motive : UInt8 → Bytes → Prop} (b : UInt8)
    (quote : motive Ascii.doubleQuote [Ascii.backslash, Ascii.doubleQuote])
    (backslash : motive Ascii.backslash [Ascii.backslash, Ascii.backslash])
    (lineFeed : motive Ascii.lf [Ascii.backslash, 0x6E])
    (byte : b ≠ Ascii.doubleQuote → b ≠ Ascii.backslash → b ≠ Ascii.lf → motive b [b]) :
    motive b (stringByte b) := by
  unfold stringByte
  split_ifs with hquote hbackslash hlf
  · subst hquote; exact quote
  · subst hbackslash; exact backslash
  · subst hlf; exact lineFeed
  · exact byte hquote hbackslash hlf

@[simp]
theorem stringBody_cons (b : UInt8) (s : Bytes) :
    stringBody (b :: s) = stringByte b ++ stringBody s := rfl

@[simp]
theorem stringBody_append (s t : Bytes) : stringBody (s ++ t) = stringBody s ++ stringBody t :=
  List.flatMap_append

theorem quotedBytes_stringBody (s : Bytes) : QuotedBytes Ascii.doubleQuote (stringBody s) := by
  induction s with
  | nil => exact .nil
  | cons b s ih =>
    refine QuotedBytes.append ?_ ih
    refine stringByte_cases (motive := fun _ t => QuotedBytes Ascii.doubleQuote t) b ?_ ?_ ?_ ?_
    · exact .escape (by decide) .nil
    · exact .escape (by decide) .nil
    · exact .escape (by decide) .nil
    · exact fun hquote hbackslash hlf => .byte hquote hbackslash hlf .nil

section Literal

variable (s r : Bytes)

theorem quotedBody_stringBody :
    quotedBody Ascii.doubleQuote (stringBody s ++ Ascii.doubleQuote :: r) = stringBody s :=
  quotedBody_append_quote (by decide) (quotedBytes_stringBody s) r

theorem writeString_append :
    writeString s ++ r = Ascii.doubleQuote :: (stringBody s ++ Ascii.doubleQuote :: r) := by
  simp [writeString]

end Literal

/-! ## Values -/

namespace Palaiologos

theorem stringValue_cons {b : UInt8} (hb : b ≠ Ascii.backslash) (s : Bytes) :
    stringValue (b :: s) = b :: stringValue s := by
  cases s with
  | nil => simp [stringValue, hb]
  | cons c s => rw [stringValue, if_neg hb]

theorem stringValue_escape (b : UInt8) (s : Bytes) :
    stringValue (Ascii.backslash :: b :: s) = unescape b :: stringValue s := by
  rw [stringValue, if_pos rfl]

/-- **The value of a literal that has been written** is the string. -/
theorem stringValue_stringBody (s : Bytes) : stringValue (stringBody s) = s := by
  induction s with
  | nil => rfl
  | cons b s ih =>
    suffices h : stringValue (stringByte b ++ stringBody s) = b :: stringValue (stringBody s) by
      rw [stringBody_cons, h, ih]
    refine stringByte_cases
      (motive := fun b t => stringValue (t ++ stringBody s) = b :: stringValue (stringBody s)) b
      ?_ ?_ ?_ ?_
    · exact stringValue_escape _ _
    · exact stringValue_escape _ _
    · exact stringValue_escape _ _
    · exact fun _ hbackslash _ => stringValue_cons hbackslash _

theorem readString_writeString (s r : Bytes) :
    readString (stringBody s ++ Ascii.doubleQuote :: r) = stringToken .bytes s := by
  rw [readString, quotedBody_stringBody, List.drop_left, closingQuote_quote,
    stringValue_stringBody, endsInEscape_of_quotedBytes (quotedBytes_stringBody s)]
  rfl

end Palaiologos

namespace Voliva

theorem stringBody_encode {c : Nat} (hc : c.isValidChar) :
    (c ≠ 0x5C ∧ stringBody (Utf8.encode c) = Utf8.encode c) ∨
      ∃ d : Nat, d.isValidChar ∧ escaped? Ascii.doubleQuote d = some c ∧
        stringBody (Utf8.encode c) = Ascii.backslash :: Utf8.encode d := by
  by_cases hquote : c = 0x22
  · subst hquote
    exact .inr ⟨0x22, by decide, rfl, rfl⟩
  by_cases hbackslash : c = 0x5C
  · subst hbackslash
    exact .inr ⟨0x5C, by decide, rfl, rfl⟩
  by_cases hlf : c = 0x0A
  · subst hlf
    exact .inr ⟨0x6E, by decide, rfl, rfl⟩
  refine .inl ⟨hbackslash, ?_⟩
  have hbyte : ∀ b ∈ Utf8.encode c, stringByte b = [b] := by
    intro b hb
    have hne : ∀ a : UInt8, a < 0x80 → c ≠ a.toNat → b ≠ a := fun a ha hca h =>
      Utf8.notMem_encode hc ha hca (h ▸ hb)
    rw [stringByte, if_neg (hne Ascii.doubleQuote (by decide) hquote),
      if_neg (hne Ascii.backslash (by decide) hbackslash), if_neg (hne Ascii.lf (by decide) hlf)]
  rw [stringBody, List.flatMap_congr hbyte, List.flatMap_singleton']

/-- **The value of a literal that has been written** is the string, character by character. -/
theorem unescape_stringBody {s : Bytes} (hs : Utf8.isValid s) :
    unescape Ascii.doubleQuote (stringBody s) = { value := s } := by
  -- escapes are read a code point at a time, so the induction goes along those and not the bytes
  induction s using Utf8.validInduction with
  | nil => exact unescape_nil
  | encoding c t hc ih =>
    have ht : Utf8.isValid t := Utf8.isValid_right hs (Utf8.isValid_encode hc)
    rw [stringBody_append]
    obtain ⟨hbackslash, hbody⟩ | ⟨d, hd, hescape, hbody⟩ := stringBody_encode hc
    · rw [hbody, unescape_encode hc hbackslash, ih ht]
      rfl
    · rw [hbody, List.cons_append, unescape_escaped hd _ hescape, ih ht]
      rfl
  | illFormed b rest hill =>
    rw [Utf8.isValid_cons, hill] at hs
    cases hs

theorem readString_writeString {s : Bytes} (hs : Utf8.isValid s) (r : Bytes) :
    readString (stringBody s ++ Ascii.doubleQuote :: r) = stringToken .utf8 s := by
  rw [readString, quotedBody_stringBody, List.drop_left, closingQuote_quote,
    unescape_stringBody hs]
  simp [stringToken, writeString, flagIf_eq_empty]

end Voliva

/-! ## Programs -/

/-- **Every string can be written and is read back**, whatever follows its literal; in a voliva
program every well-formed one. -/
theorem lex_writeString (s r : Bytes) :
    Palaiologos.lex (writeString s ++ r) = stringToken .bytes s :: Palaiologos.lex r ∧
      (Utf8.isValid s →
        Voliva.lex (writeString s ++ r) = stringToken .utf8 s :: Voliva.lex r) := by
  have htext : ∀ encoding, Ascii.doubleQuote :: (stringBody s ++ Ascii.doubleQuote :: r)
      = (stringToken encoding s).text ++ r := fun _ => (writeString_append s r).symm
  rw [writeString_append]
  constructor
  · have hnext : Palaiologos.next Ascii.doubleQuote (stringBody s ++ Ascii.doubleQuote :: r)
        = stringToken .bytes s := Palaiologos.readString_writeString s r
    rw [Palaiologos.lex, tokenize_eq Palaiologos.next_readsStart (hnext ▸ htext _), hnext]
    rfl
  · intro hs
    have hnext : Voliva.next Ascii.doubleQuote (stringBody s ++ Ascii.doubleQuote :: r)
        = stringToken .utf8 s := Voliva.readString_writeString hs r
    rw [Voliva.lex, tokenize_eq Voliva.next_readsStart (hnext ▸ htext _), hnext]
    rfl

/-- A string that ends in a backslash, in front of another quote. -/
theorem lex_writeString_backslash :
    let s : Bytes := [0xC3, 0xA9, Ascii.doubleQuote, Ascii.lf, Ascii.backslash]
    Utf8.isValid s ∧ Voliva.lex (writeString s ++ [Ascii.doubleQuote])
      = stringToken .utf8 s :: Voliva.lex [Ascii.doubleQuote] := by
  intro s
  have hvalid : Utf8.isValid s := by cbv
  exact ⟨hvalid, (lex_writeString s [Ascii.doubleQuote]).2 hvalid⟩

end WhitespaceAsm

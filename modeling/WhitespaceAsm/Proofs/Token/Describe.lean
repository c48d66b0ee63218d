import Mathlib.Algebra.Ring.Parity
import Mathlib.Data.List.DropRight
import Mathlib.Data.List.Nodup
import Mathlib.Tactic.SplitIfs
import WhitespaceAsm.Proofs.Numeral.Digits
import WhitespaceAsm.Token.Describe

/-!
# Escaped text

Every byte is written as itself or as an escape of two or four bytes, and no escape begins like
another one or like a byte that is written as itself. An escaped text can therefore be read back in
one way only. It prints, and each double quote in it is escaped, so that what is written for a token
stays on one line.

* **`Printable`**: texts of printable ASCII; `printable_decimal`, `printable_hexadecimal`: numbers;
* **`Escape`**: what a byte is written as; `Escape.append_inj`: the escapes are a prefix code;
* **`escapeText_injective`**, `printable_escapeText`; `odd_backslashes_of_escapeText`: the quotes in
  an escaped text;
* **`Token.printable_describe`**: the description of a token.
-/

namespace WhitespaceAsm

/-! ## Printable texts -/

/-- **The text prints**: it is made of printable ASCII, without a line break. -/
def Printable (s : Bytes) : Prop := ∀ b ∈ s, 0x20 ≤ b ∧ b ≤ 0x7E

-- by the bytes of the text, and not by all bytes that there are
instance (s : Bytes) : Decidable (Printable s) :=
  List.decidableBAll (fun b => 0x20 ≤ b ∧ b ≤ 0x7E) s

namespace Printable

variable {s t : Bytes}

theorem nil : Printable [] := List.forall_mem_nil _

theorem append (hs : Printable s) (ht : Printable t) : Printable (s ++ t) :=
  List.forall_mem_append.2 ⟨hs, ht⟩

theorem ite {c : Prop} [Decidable c] (hs : Printable s) (ht : Printable t) :
    Printable (if c then s else t) := by
  split
  · exact hs
  · exact ht

theorem lf_notMem (hs : Printable s) : Ascii.lf ∉ s := fun h => absurd (hs _ h).1 (by decide)

end Printable

theorem printable_of_isIdentifier {b : UInt8} (h : Ascii.isIdentifier b) : 0x20 ≤ b ∧ b ≤ 0x7E := by
  simp only [Ascii.isIdentifier, Ascii.isLetter, Ascii.isUpper, Ascii.isLower, Ascii.isDigit,
    Ascii.underscore, Bool.or_eq_true, Bool.and_eq_true, decide_eq_true_eq, beq_iff_eq,
    UInt8.le_iff_toNat_le, ← UInt8.toNat_inj, UInt8.reduceToNat] at h
  simp only [UInt8.le_iff_toNat_le, UInt8.reduceToNat]
  omega

theorem printable_decimal (n : Nat) : Printable (decimal n) := fun b hb =>
  printable_of_isIdentifier (by
    rw [Ascii.isIdentifier, isDigit_of_mem_decimal hb, Bool.or_true, Bool.true_or])

theorem printable_signedDecimal (i : Int) : Printable (signedDecimal i) := by
  unfold signedDecimal
  split
  · exact List.forall_mem_cons.2 ⟨by decide, printable_decimal _⟩
  · exact printable_decimal _

open Numeral (Radix)

theorem digits_of_lt {n : Nat} (h : n < 16) :
    Radix.hexadecimal.digits n = [Radix.digitByte n] := by
  rw [Radix.digits]
  exact if_pos h

theorem digits_of_le {n : Nat} (h : 16 ≤ n) : Radix.hexadecimal.digits n
    = Radix.hexadecimal.digits (n / 16) ++ [Radix.digitByte (n % 16)] := by
  rw [Radix.digits]
  exact if_neg (Nat.not_lt.2 h)

theorem digits_hexadecimal (n : Nat) :
    Radix.hexadecimal.digits n = (Nat.toDigits 16 n).map fun c => UInt8.ofNat c.toNat := by
  have hdigit : ∀ d < 16, Radix.digitByte d = UInt8.ofNat d.digitChar.toNat := by decide
  induction n using Nat.strongRecOn with
  | ind n ih =>
    by_cases h : n < 16
    · rw [digits_of_lt h, Nat.toDigits_of_lt_base h, hdigit n h, List.map_singleton]
    · have hle := Nat.not_lt.1 h
      rw [digits_of_le hle, Nat.toDigits_of_base_le (by decide) hle, ih _ (by omega),
        hdigit _ (Nat.mod_lt n (by decide)), List.map_append, List.map_singleton]

theorem hexadecimal_eq (width n : Nat) : hexadecimal width n
    = List.replicate (width - (Radix.hexadecimal.digits n).length) Ascii.zero
      ++ Radix.hexadecimal.digits n := by
  rw [digits_hexadecimal]
  rfl

theorem hexadecimal_two {n : Nat} (h : n < 256) :
    hexadecimal 2 n = [Radix.digitByte (n / 16), Radix.digitByte (n % 16)] := by
  rw [hexadecimal_eq]
  by_cases hsmall : n < 16
  · rw [digits_of_lt hsmall, Nat.div_eq_of_lt hsmall, Nat.mod_eq_of_lt hsmall]
    rfl
  · rw [digits_of_le (Nat.not_lt.1 hsmall), digits_of_lt (by omega)]
    rfl

theorem isIdentifier_of_mem_hexadecimal {width n : Nat} {b : UInt8}
    (h : b ∈ hexadecimal width n) : Ascii.isIdentifier b := by
  rw [hexadecimal_eq, List.mem_append] at h
  obtain h | h := h
  · rw [List.eq_of_mem_replicate h]
    decide
  · exact Radix.isIdentifier_of_digit? (Radix.isSome_digit?_of_mem_digits h)

theorem printable_hexadecimal (width n : Nat) : Printable (hexadecimal width n) := fun _ hb =>
  printable_of_isIdentifier (isIdentifier_of_mem_hexadecimal hb)

theorem printable_toUpper {b : UInt8} (h : 0x20 ≤ b ∧ b ≤ 0x7E) :
    0x20 ≤ Ascii.toUpper b ∧ Ascii.toUpper b ≤ 0x7E := by
  unfold Ascii.toUpper
  split
  · next hlower =>
    simp only [Ascii.isLower, Bool.and_eq_true, decide_eq_true_eq, UInt8.le_iff_toNat_le,
      UInt8.reduceToNat] at hlower
    have hsub : (b - 0x20).toNat = b.toNat - 0x20 := UInt8.toNat_sub_of_le _ _ h.1
    simp only [UInt8.le_iff_toNat_le, UInt8.reduceToNat, hsub]
    omega
  · exact h

/-! ## Escapes -/

/-- The bytes that are written as a backslash and one more byte, with that byte. -/
def namedEscapes : List (UInt8 × UInt8) :=
  [(Ascii.lf, 0x6E), (Ascii.cr, 0x72), (Ascii.tab, 0x74), (Ascii.doubleQuote, Ascii.doubleQuote),
   (Ascii.backslash, Ascii.backslash)]

/-- **What a byte is written as.** -/
inductive Escape : UInt8 → Bytes → Prop
  | plain {b : UInt8} (hprints : 0x20 ≤ b ∧ b ≤ 0x7E) (hquote : b ≠ Ascii.doubleQuote)
      (hbackslash : b ≠ Ascii.backslash) : Escape b [b]
  | named {b c : UInt8} (h : (b, c) ∈ namedEscapes) : Escape b [Ascii.backslash, c]
  | hexadecimal (b : UInt8) : Escape b
      [Ascii.backslash, 0x78, Radix.digitByte (b.toNat / 16), Radix.digitByte (b.toNat % 16)]

theorem escape_escapeByte (b : UInt8) : Escape b (escapeByte b) := by
  unfold escapeByte
  split_ifs with hlf hcr htab hquote hbackslash hprints
  · subst hlf
    exact .named (by decide)
  · subst hcr
    exact .named (by decide)
  · subst htab
    exact .named (by decide)
  · subst hquote
    exact .named (by decide)
  · subst hbackslash
    exact .named (by decide)
  · exact .plain ⟨hprints.1, by rw [UInt8.le_iff_toNat_le]; exact Nat.le_of_lt_succ hprints.2⟩
      hquote hbackslash
  · rw [hexadecimal_two b.toNat_lt]
    exact .hexadecimal b

namespace Escape

variable {a b : UInt8} {x y s t : Bytes}

theorem digitByte_inj {m n : Nat} (hm : m < 16) (hn : n < 16)
    (h : Radix.digitByte m = Radix.digitByte n) : m = n := by
  have hdigit := Radix.digit?_digitByte (r := .hexadecimal) hm
  rw [h, Radix.digit?_digitByte (r := .hexadecimal) hn] at hdigit
  exact (Option.some.inj hdigit).symm

/-- **The escapes are a prefix code**: what a text begins with tells the first byte. -/
theorem append_inj (hx : Escape a x) (hy : Escape b y) (h : x ++ s = y ++ t) : a = b ∧ s = t := by
  have hnodup : (namedEscapes.map Prod.snd).Nodup := by decide
  have hhexadecimal : 0x78 ∉ namedEscapes.map Prod.snd := by decide
  cases hx with
  | plain _ _ ha =>
    cases hy with
    | plain => exact List.cons.inj h
    | named | hexadecimal => exact absurd (List.cons.inj h).1 ha
  | named hc =>
    cases hy with
    | plain _ _ hb => exact absurd (List.cons.inj h).1.symm hb
    | named hd =>
      obtain ⟨-, h⟩ := List.cons.inj h
      obtain ⟨hcd, h⟩ := List.cons.inj h
      exact ⟨congrArg Prod.fst (List.inj_on_of_nodup_map hnodup hc hd hcd), h⟩
    | hexadecimal =>
      have hletter := (List.cons.inj (List.cons.inj h).2).1
      exact absurd (hletter ▸ List.mem_map_of_mem hc) hhexadecimal
  | hexadecimal =>
    cases hy with
    | plain _ _ hb => exact absurd (List.cons.inj h).1.symm hb
    | named hd =>
      have hletter := (List.cons.inj (List.cons.inj h).2).1.symm
      exact absurd (hletter ▸ List.mem_map_of_mem hd) hhexadecimal
    | hexadecimal =>
      simp only [List.cons_append, List.nil_append, List.cons.injEq, true_and] at h
      obtain ⟨hhigh, hlow, h⟩ := h
      have ha := a.toNat_lt
      have hb := b.toNat_lt
      have hdiv := digitByte_inj (by omega) (by omega) hhigh
      have hmod := digitByte_inj (by omega) (by omega) hlow
      exact ⟨UInt8.toNat_inj.1 (by omega), h⟩

theorem ne_nil (hx : Escape a x) : x ≠ [] := by
  cases hx <;> exact List.cons_ne_nil _ _

theorem printable_digitByte {n : Nat} (h : n < 16) :
    0x20 ≤ Radix.digitByte n ∧ Radix.digitByte n ≤ 0x7E := by
  refine printable_of_isIdentifier (Radix.isIdentifier_of_digit? (r := .hexadecimal) ?_)
  rw [Radix.digit?_digitByte h]
  rfl

theorem printable (hx : Escape a x) : Printable x := by
  cases hx with
  | plain hprints => exact List.forall_mem_singleton.2 hprints
  | named hc =>
    have hletters : Printable (namedEscapes.map Prod.snd) := by decide
    exact List.forall_mem_cons.2 ⟨by decide,
      List.forall_mem_singleton.2 (hletters _ (List.mem_map_of_mem hc))⟩
  | hexadecimal =>
    have ha := a.toNat_lt
    have hopening : Printable [Ascii.backslash, 0x78] := by decide
    exact hopening.append (List.forall_mem_cons.2 ⟨printable_digitByte (by omega),
      List.forall_mem_singleton.2 (printable_digitByte (by omega))⟩)

end Escape

/-! ## Escaped texts -/

theorem escapeText_cons (b : UInt8) (s : Bytes) :
    escapeText (b :: s) = escapeByte b ++ escapeText s := rfl

theorem escapeText_cons_ne_nil (b : UInt8) (s : Bytes) : escapeText (b :: s) ≠ [] := by
  rw [escapeText_cons]
  exact List.append_ne_nil_of_left_ne_nil (escape_escapeByte b).ne_nil _

theorem escapeText_concat (s : Bytes) (b : UInt8) :
    escapeText (s ++ [b]) = escapeText s ++ escapeByte b := by
  rw [escapeText, List.flatMap_append, List.flatMap_singleton]
  rfl

/-- **Different texts are escaped differently.** -/
theorem escapeText_injective : Function.Injective escapeText := by
  intro s t h
  induction s generalizing t with
  | nil =>
    cases t with
    | nil => rfl
    | cons b t => exact absurd h.symm (escapeText_cons_ne_nil b t)
  | cons a s ih =>
    cases t with
    | nil => exact absurd h (escapeText_cons_ne_nil a s)
    | cons b t =>
      obtain ⟨hbyte, hrest⟩ := (escape_escapeByte a).append_inj (escape_escapeByte b) h
      rw [hbyte, ih hrest]

theorem printable_escapeText (s : Bytes) : Printable (escapeText s) := by
  intro b hb
  obtain ⟨a, -, ha⟩ := List.mem_flatMap.1 hb
  exact (escape_escapeByte a).printable b ha

/-! ## Quotes in an escaped text -/

/-- The backslashes at the end of a text. -/
def backslashes (s : Bytes) : Bytes := s.rtakeWhile (· == Ascii.backslash)

theorem backslashes_concat (s : Bytes) {b : UInt8} (hb : b ≠ Ascii.backslash) :
    backslashes (s ++ [b]) = [] :=
  List.rtakeWhile_concat_neg _ _ _ (by simpa using hb)

theorem backslashes_concat_backslash (s : Bytes) :
    (backslashes (s ++ [Ascii.backslash])).length = (backslashes s).length + 1 := by
  rw [backslashes, List.rtakeWhile_concat_pos _ _ _ rfl, List.length_append]
  rfl

theorem even_backslashes_escapeText (s : Bytes) : Even (backslashes (escapeText s)).length := by
  induction s using List.reverseRecOn with
  | nil => exact Even.zero
  | append_singleton s b ih =>
    have hescape := escape_escapeByte b
    rw [escapeText_concat]
    generalize escapeByte b = x at hescape ⊢
    cases hescape with
    | plain _ _ hb =>
      rw [backslashes_concat _ hb]
      exact Even.zero
    | @named c hc =>
      rw [List.append_cons]
      by_cases hbackslash : c = Ascii.backslash
      · rw [hbackslash, backslashes_concat_backslash, backslashes_concat_backslash,
          Nat.even_add_one, Nat.even_add_one, not_not]
        exact ih
      · rw [backslashes_concat _ hbackslash]
        exact Even.zero
    | hexadecimal =>
      have hlast : Radix.digitByte (b.toNat % 16) ≠ Ascii.backslash := by
        have hall : ∀ d < 16, Radix.digitByte d ≠ Ascii.backslash := by decide
        exact hall _ (Nat.mod_lt _ (by decide))
      rw [List.append_cons, List.append_cons, List.append_cons, backslashes_concat _ hlast]
      exact Even.zero

theorem Escape.quote {b : UInt8} {x y : Bytes} (h : Escape b (x ++ Ascii.doubleQuote :: y)) :
    x = [Ascii.backslash] := by
  generalize hz : x ++ Ascii.doubleQuote :: y = z at h
  have hmem : Ascii.doubleQuote ∈ z := hz ▸ List.mem_append_right x List.mem_cons_self
  have hdigit : ∀ d < 16, Radix.digitByte d ≠ Ascii.doubleQuote := by decide
  have hb := b.toNat_lt
  cases h with
  | plain _ hquote _ => exact absurd (List.mem_singleton.1 hmem).symm hquote
  | named hc =>
    cases x with
    | nil => exact absurd (List.cons.inj hz).1 (by decide)
    | cons c x =>
      obtain ⟨rfl, hz⟩ := List.cons.inj hz
      obtain rfl : x = [] := by
        have hlength := congrArg List.length hz
        simp only [List.length_append, List.length_cons, List.length_nil] at hlength
        exact List.eq_nil_of_length_eq_zero (by omega)
      rfl
  | hexadecimal =>
    simp only [List.mem_cons, List.not_mem_nil, or_false] at hmem
    obtain h | h | h | h := hmem
    · cases h
    · cases h
    · exact absurd h.symm (hdigit _ (by omega))
    · exact absurd h.symm (hdigit _ (by omega))

/-- **Each double quote in an escaped text is escaped**: it stands behind an odd number of
backslashes. -/
theorem odd_backslashes_of_escapeText {s x y : Bytes}
    (h : escapeText s = x ++ Ascii.doubleQuote :: y) : Odd (backslashes x).length := by
  induction s using List.reverseRecOn generalizing y with
  | nil => cases x <;> cases h
  | append_singleton s b ih =>
    rw [escapeText_concat] at h
    obtain ⟨w, hx, hescape⟩ | ⟨w, hs, hrest⟩ := List.append_eq_append_iff.1 h
    · have hquote := escape_escapeByte b
      rw [hescape] at hquote
      rw [hx, hquote.quote, backslashes_concat_backslash]
      exact (even_backslashes_escapeText s).add_one
    · cases w with
      | nil =>
        -- an escape does not begin with a quote
        have hquote := escape_escapeByte b
        rw [List.nil_append] at hrest
        rw [← hrest] at hquote
        exact absurd (Escape.quote (x := []) hquote).symm (List.cons_ne_nil _ _)
      | cons c w =>
        obtain ⟨rfl, rfl⟩ := List.cons.inj hrest
        exact ih hs

/-! ## Descriptions -/

theorem printable_quoteText (s : Bytes) : Printable (quoteText s) := by
  have hquote : Printable [Ascii.doubleQuote] := by decide
  exact (hquote.append (printable_escapeText s)).append hquote

theorem printable_describeFlags {ε : Type} (errors : FlagSet ε) :
    Printable (describeFlags errors) := by
  have hlabel : Printable (ascii " errors=0x") := by decide
  exact .ite .nil (hlabel.append (printable_hexadecimal _ _))

namespace Opcode

theorem mem_all (o : Opcode) : o ∈ all := by cases o <;> decide

theorem isIdentifier_of_mem_name (o : Opcode) : ∀ b ∈ ascii o.name, Ascii.isIdentifier b := by
  have hall : ∀ o ∈ all, (ascii o.name).all Ascii.isIdentifier := by decide +kernel
  exact List.all_eq_true.1 (hall o o.mem_all)

theorem printable_name (o : Opcode) : Printable (ascii o.name) := fun b hb =>
  printable_of_isIdentifier (o.isIdentifier_of_mem_name b hb)

end Opcode

theorem Numeral.Error.printable_names (errors : FlagSet Numeral.Error) :
    Printable (Numeral.Error.names errors) := by
  have hname : ∀ e : Numeral.Error, Printable (ascii e.name) := by
    intro e
    cases e <;> decide
  have hsep : Printable (ascii ", ") := by decide
  unfold Numeral.Error.names List.intercalate
  induction errors.toList with
  | nil => exact .nil
  | cons e es ih =>
    cases es with
    | nil => simpa using hname e
    | cons e' es => exact (hname e).append (hsep.append ih)

theorem Payload.printable_details : ∀ p : Payload, Printable p.details
  | .mnemonic opcode => .append (by decide) opcode.printable_name
  | .integer n => by
    have hstyle : Printable (ascii n.style.name) := by cases n.style <;> decide
    have hzeros : Printable (ascii " zeros=" ++ decimal n.leadingZeros) :=
      .append (by decide) (printable_decimal _)
    have herrors : Printable (ascii " errors=[" ++ Numeral.Error.names n.errors ++ ascii "]") :=
      .append (.append (by decide) (Numeral.Error.printable_names _)) (by decide)
    have hvalue : Printable (ascii " value=" ++ signedDecimal n.value ++ ascii " base=") :=
      .append (.append (by decide) (printable_signedDecimal _)) (by decide)
    exact ((hvalue.append hstyle).append (.ite .nil hzeros)).append (.ite .nil herrors)
  | .string s => by
    have hquotes : Printable (ascii s.quotes.name) := by cases s.quotes <;> decide
    have hvalue : Printable (ascii " value=" ++ quoteText s.unescaped ++ ascii " ") :=
      .append (.append (by decide) (printable_quoteText _)) (by decide)
    exact (hvalue.append hquotes).append (printable_describeFlags _)
  | .char c => by
    have hdigits : Printable ((hexadecimal 4 c.value).map Ascii.toUpper) :=
      List.forall_mem_map.2 fun b hb => printable_toUpper (printable_hexadecimal _ _ b hb)
    exact .append (.append (by decide) hdigits) (printable_describeFlags _)
  | .variable _ name => .append (by decide) (printable_quoteText name)
  | .label l => .append (.append (by decide) (printable_quoteText _)) (printable_describeFlags _)
  | .argSep errors => printable_describeFlags errors
  | .blockComment _ => .append (.ite .nil (by decide)) (.ite (by decide) .nil)
  | .error kind length => by
    have hkind : Printable (ascii kind.name) := by cases kind <;> decide
    have hlength : Printable (ascii " len=" ++ decimal length) :=
      .append (by decide) (printable_decimal _)
    exact .append (.append (by decide) hkind) (.ite hlength .nil)
  | .labelColon | .instSep _ | .space | .lineTerm _ | .endOfInput | .lineComment _ | .word _ => .nil

namespace Token

theorem printable_kindName (k : TokenKind) : Printable (ascii k.name) := by
  cases k <;> decide

mutual

/-- **The description of a token prints**, with those of the tokens that it wraps. -/
theorem printable_describe : ∀ t : Token, Printable t.describe
  | plain text payload => by
    rw [describe]
    exact .append (.append (.append (printable_kindName _) (by decide)) (printable_quoteText text))
      payload.printable_details
  | quoted text inner _ terminated => by
    rw [describe]
    exact .append (.append (.append (by decide) (printable_quoteText text))
      (.ite .nil (by decide))) (printable_describeWrapped inner)
  | spliced text parts word => by
    rw [describe]
    exact .append (.append (.append (.append (by decide) (printable_quoteText text)) (by decide))
      (printable_decimal parts.length)) (printable_describeWrapped word)

theorem printable_describeWrapped : ∀ o : Option Token, Printable (describeWrapped o)
  | none => .nil
  | some t => by
    rw [describeWrapped]
    exact .append (.append (by decide) (printable_describe t)) (by decide)

end

end Token

end WhitespaceAsm

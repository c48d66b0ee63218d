import WhitespaceAsm.Proofs.Lexer
import WhitespaceAsm.Proofs.Utf8.Boundary
import WhitespaceAsm.Proofs.Utf8.Encode

/-!
# Reading well-formed text

Each operation of a scanner over code points passes a text at the start of the rest. Where the rest
is well-formed, that text is what the same operation on bytes finds, since the classes of characters
that matter are told apart by their ASCII bytes.

* `Utf8.eq_iff_of_mem_encode`, **`Utf8.takeUnits_eq_takeWhile`**: code points and their bytes;
* **`Scanner.passed`**: a scanner that has passed a text; `passed_append`, `rest_passed`,
  `wrap_passed`.
-/

namespace WhitespaceAsm

namespace Utf8

variable {c : Nat} (hc : c.isValidChar)

include hc

theorem eq_iff_of_mem_encode {b k : UInt8} (hb : b ∈ encode c) (hk : k < 0x80) :
    c = k.toNat ↔ b = k := by
  constructor
  · rintro rfl
    rw [encode_of_lt (UInt8.lt_iff_toNat_lt.1 hk), List.mem_singleton] at hb
    rw [hb, UInt8.ofNat_toNat]
  · rintro rfl
    exact (toNat_of_mem_encode hc hb hk).symm

theorem beq_of_mem_encode {b k : UInt8} (hb : b ∈ encode c) (hk : k < 0x80) :
    (c == k.toNat) = (b == k) := by
  rw [Bool.eq_iff_iff, beq_iff_eq, beq_iff_eq, eq_iff_of_mem_encode hc hb hk]

theorem le_of_mem_tail_encode {b : UInt8} (hb : b ∈ (encode c).tail) : 0x80 ≤ b := by
  by_cases hascii : c < 0x80
  · rw [encode_of_lt hascii] at hb
    cases hb
  · exact le_of_mem_encode hc (Nat.not_lt.1 hascii) (List.mem_of_mem_tail hb)

omit hc in
/-- **A run of characters is a run of bytes**, when all bytes of a character are of the class that
the character is of. -/
theorem takeUnits_eq_takeWhile {p : Nat → Bool} {q : UInt8 → Bool}
    (hpq : ∀ c, c.isValidChar → ∀ b ∈ encode c, q b = p c) {s : Bytes} (hs : isValid s) :
    takeUnits (fun u => p u.codePoint) s = s.takeWhile q := by
  induction s using validInduction with
  | nil => rw [takeUnits, List.takeWhile_nil]
  | encoding c t hc ih =>
    have ht := ih (isValid_right hs (isValid_encode hc))
    obtain ⟨b, rest, hcons, hdecode, hdrop⟩ := exists_cons_encode hc t
    have htake : (b :: rest).take (encode c).length = encode c := by rw [← hcons, List.take_left]
    rw [hcons, takeUnits]
    simp only [hdecode, hdrop, htake, ht]
    rw [← hcons]
    cases hp : p c with
    | true =>
      rw [if_pos rfl, List.takeWhile_append_of_pos fun b hb => (hpq c hc b hb).trans hp]
    | false =>
      obtain ⟨b, rest, hencode⟩ := List.exists_cons_of_ne_nil (encode_ne_nil c)
      have hb : q b = false := (hpq c hc b (hencode ▸ List.mem_cons_self)).trans hp
      rw [if_neg Bool.false_ne_true, hencode, List.cons_append, List.takeWhile_cons, hb,
        if_neg Bool.false_ne_true]
  | illFormed b rest hvalid => exact absurd hs (by simp [isValid, validLength, hvalid])

omit hc in
theorem exists_encode_of_isValid_cons {b : UInt8} {rest : Bytes} (h : isValid (b :: rest)) :
    ∃ c t, c.isValidChar ∧ isValid t ∧ b ∈ encode c ∧ b :: rest = encode c ++ t := by
  obtain ⟨c, t, hc, ht, hcons⟩ := exists_encode_of_isValid h (List.cons_ne_nil b rest)
  obtain ⟨x, xs, hencode⟩ := List.exists_cons_of_ne_nil (encode_ne_nil c)
  rw [hencode, List.cons_append] at hcons
  obtain ⟨rfl, rfl⟩ := List.cons.inj hcons
  exact ⟨c, t, hc, ht, hencode ▸ List.mem_cons_self, by rw [hencode, List.cons_append]⟩

end Utf8

/-! ## Texts that are passed -/

namespace Scanner

/-- **The scanner that has passed a text.** -/
def passed (s : Scanner) (text : Bytes) : Scanner :=
  { s with pos := s.pos.advance s.columns text }

theorem passed_append (s : Scanner) (x y : Bytes) : s.passed (x ++ y) = (s.passed x).passed y := by
  rw [passed, Pos.advance_append]
  rfl

section Passed

variable {s : Scanner} (h : s.WellPlaced) {text : Bytes} (ht : text <+: s.rest)

include h ht

theorem advanceTo_eq_passed : s.advanceTo (s.pos.offset + text.length) = s.passed text :=
  congrArg (fun pos => { s with pos }) (pos_advanceTo h ht)

theorem wellPlaced_passed : (s.passed text).WellPlaced :=
  advanceTo_eq_passed h ht ▸ wellPlaced_advanceTo h ht

theorem rest_eq_append : s.rest = text ++ (s.passed text).rest :=
  advanceTo_eq_passed h ht ▸ rest_advanceTo h ht

theorem text_passed (hstart : s.start = s.pos) : (s.passed text).text = text :=
  advanceTo_eq_passed h ht ▸ text_advanceTo h ht hstart

theorem wrap_passed (hstart : s.start = s.pos) (payload : Payload) :
    (s.passed text).wrap payload = .plain text payload := by
  rw [wrap, text_passed h ht hstart]

theorem slice_passed : s.slice s.pos.offset (s.passed text).pos.offset = text := by
  rw [passed, Pos.offset_advance, slice, if_neg (by omega), Nat.add_sub_cancel_left]
  exact take_drop_source h ht

end Passed

theorem rest_passed {s : Scanner} (h : s.WellPlaced) {text rest : Bytes}
    (hrest : s.rest = text ++ rest) : (s.passed text).rest = rest :=
  List.append_cancel_left ((rest_eq_append h ⟨rest, hrest.symm⟩).symm.trans hrest)

/-! ## Operations -/

section Operations

variable {s : Scanner} (h : s.WellPlaced)

include h

theorem atEnd_eq : s.atEnd = s.rest.isEmpty := by
  rw [atEnd, Bool.eq_iff_iff, decide_eq_true_iff, List.isEmpty_iff_length_eq_zero, rest_length h]
  omega

theorem peekUnit?_of_nil (hrest : s.rest = []) : s.peekUnit? = none := by
  rw [peekUnit?, atEnd_eq h, hrest, List.isEmpty_nil, if_pos rfl]

theorem peekUnit?_eq {c : Nat} (hc : c.isValidChar) {t : Bytes}
    (hrest : s.rest = Utf8.encode c ++ t) :
    s.peekUnit? = some ⟨c, (Utf8.encode c).length, true⟩ := by
  rw [peekUnit?, atEnd_eq h, hrest, Utf8.decode_encode hc, if_neg]
  simp [Utf8.encode_ne_nil]

theorem nextUnit_eq {c : Nat} (hc : c.isValidChar) {t : Bytes}
    (hrest : s.rest = Utf8.encode c ++ t) : s.nextUnit = (c, s.passed (Utf8.encode c)) := by
  rw [nextUnit, peekUnit?_eq h hc hrest]
  exact congrArg (Prod.mk c) (advanceTo_eq_passed h ⟨t, hrest.symm⟩)

theorem bumpCharIf?_eq {k : UInt8} (hk : k < 0x80) (hvalid : Utf8.isValid s.rest) :
    s.bumpCharIf? (· == k.toNat)
      = if s.rest.head? = some k then some (s.passed [k]) else none := by
  cases hrest : s.rest with
  | nil =>
    rw [bumpCharIf?, peekUnit?_of_nil h hrest]
    rfl
  | cons b rest =>
    rw [hrest] at hvalid
    obtain ⟨c, t, hc, -, hb, hcons⟩ := Utf8.exists_encode_of_isValid_cons hvalid
    rw [bumpCharIf?, peekUnit?_eq h hc (hrest.trans hcons)]
    simp only [Utf8.beq_of_mem_encode hc hb hk, beq_iff_eq, List.head?_cons, Option.some_inj]
    split
    · next hbk =>
      subst hbk
      have hencode : Utf8.encode c = [b] := by
        rw [(Utf8.eq_iff_of_mem_encode hc hb hk).2 rfl, Utf8.encode_of_lt
          (UInt8.lt_iff_toNat_lt.1 hk), UInt8.ofNat_toNat]
      rw [hencode, advanceTo_eq_passed h ⟨rest, hrest.symm⟩]
    · rfl

theorem isSome_bumpCharIf? {k : UInt8} (hk : k < 0x80) (hvalid : Utf8.isValid s.rest) :
    (s.bumpCharIf? (· == k.toNat)).isSome = decide (s.rest.head? = some k) := by
  rw [bumpCharIf?_eq h hk hvalid]
  split
  · next hhead => exact (decide_eq_true hhead).symm
  · next hhead => exact (decide_eq_false hhead).symm

theorem getD_bumpCharIf? {k : UInt8} (hk : k < 0x80) (hvalid : Utf8.isValid s.rest) :
    (s.bumpCharIf? (· == k.toNat)).getD s
      = s.passed (if decide (s.rest.head? = some k) then [k] else []) := by
  rw [bumpCharIf?_eq h hk hvalid]
  split
  · next hhead => rw [if_pos (decide_eq_true hhead), Option.getD_some]
  · next hhead =>
    rw [if_neg (by simpa using hhead)]
    rfl

theorem bumpCharsWhile_eq {p : Nat → Bool} {q : UInt8 → Bool}
    (hpq : ∀ c, c.isValidChar → ∀ b ∈ Utf8.encode c, q b = p c) (hvalid : Utf8.isValid s.rest) :
    (s.bumpCharsWhile p).2 = s.passed (s.rest.takeWhile q) := by
  rw [bumpCharsWhile, Utf8.takeUnits_eq_takeWhile hpq hvalid]
  exact advanceTo_eq_passed h (List.takeWhile_prefix q)

theorem bump?_eq (marker : Bytes) :
    s.bump? marker = if marker.isPrefixOf s.rest then some (s.passed marker) else none := by
  rw [bump?, startsWith]
  split
  · next hmarker => rw [advanceTo_eq_passed h (List.isPrefixOf_iff_prefix.1 hmarker)]
  · rfl

/-- Offsets do not wrap where the limit is a 64-bit word. -/
theorem bumpBytes_eq (hsize : s.limit < UInt64.size) {marker : Bytes}
    (hmarker : marker <+: s.rest) : s.bumpBytes marker.length = s.passed marker := by
  have hle := (wellPlaced_passed h hmarker).offset_le
  rw [passed, Pos.offset_advance] at hle
  rw [bumpBytes, offsetAfter, Nat.mod_eq_of_lt (Nat.lt_of_le_of_lt hle hsize), Nat.min_eq_left hle]
  exact advanceTo_eq_passed h hmarker

theorem bumpLine_eq : s.bumpLine = (takeLine s.rest, s.passed (takeLine s.rest)) :=
  congrArg (Prod.mk _) (advanceTo_eq_passed h (takeLine_isPrefix s.rest))

theorem lineComment_eq (hsize : s.limit < UInt64.size) (hstart : s.start = s.pos) {marker : Bytes}
    (hmarker : marker <+: s.rest) :
    s.lineComment marker.length = (Token.lineComment marker.length s.rest,
      s.passed (Token.lineComment marker.length s.rest).text) := by
  obtain ⟨t, ht⟩ := hmarker
  have hmarker : marker <+: s.rest := ⟨t, ht⟩
  have hrest : (s.passed marker).rest = t := rest_passed h ht.symm
  have hread : LineComment.read marker.length s.rest = { marker, body := takeLine t } := by
    rw [← ht, LineComment.read, List.take_left, List.drop_left]
  have htext : marker ++ takeLine t <+: s.rest := by
    rw [← ht]
    exact (List.prefix_append_right_inj marker).2 (takeLine_isPrefix t)
  rw [lineComment, bumpBytes_eq h hsize hmarker, bumpLine_eq (wellPlaced_passed h hmarker), hrest,
    Token.lineComment, hread]
  simp only [slice_passed h hmarker, ← passed_append, wrap_passed h htext hstart]
  rfl

theorem blockComment_eq (hstart : s.start = s.pos) (style : BlockCommentStyle) :
    s.blockComment style
      = (Token.blockComment style s.rest, s.passed (Token.blockComment style s.rest).text) := by
  have htext := style.text_read_isPrefix s.rest
  rw [blockComment, advanceTo_eq_passed h htext]
  simp only [wrap_passed h htext hstart]
  rfl

end Operations

end Scanner

end WhitespaceAsm

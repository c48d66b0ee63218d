import Mathlib.Tactic.SplitIfs
import WhitespaceAsm.Proofs.FlagSet
import WhitespaceAsm.Proofs.Numeral.Digits

/-!
# The markers of a base

A style of the grammar stands in for any other style, and digits between the markers of a style of
the grammar are read as that style.

* **`BaseStyle.nearest_mem`**: the nearest style of a set is in the set;
* `Marked.markers_cases`: how the markers of a style are read; **`Marked.ofBody_written`**: digits
  between markers.
-/

namespace WhitespaceAsm.Numeral

/-! ## The nearest style -/

namespace BaseStyle

theorem mem_all (style : BaseStyle) : style ∈ all := by
  cases style <;> decide

theorem mem_ofRadix_radix (style : BaseStyle) : style ∈ ofRadix style.radix := by
  cases style <;> decide

theorem mem_radices (r r' : Radix) : r ∈ [r', .hexadecimal, .decimal, .binary, .octal] := by
  cases r <;> simp

theorem nearest_mem (style : BaseStyle) {styles : FlagSet BaseStyle} (h : ∃ s, s ∈ styles) :
    style.nearest styles ∈ styles := by
  obtain ⟨s, hs⟩ := h
  unfold nearest
  split
  · next hself =>
    obtain hempty | hself := hself
    · rw [FlagSet.isEmpty_eq_false hs] at hempty
      cases hempty
    · exact hself
  · dsimp only
    split
    · next variant hvariant => simpa using List.find?_some hvariant
    · cases hradix : List.findSome? (fun r => (ofRadix r ∩ styles).first?)
        [style.radix, .hexadecimal, .decimal, .binary, .octal] with
      | some t =>
        obtain ⟨r, -, hr⟩ := List.exists_of_findSome?_eq_some hradix
        have ht : t ∈ ofRadix r ∩ styles := by simpa using List.find?_some hr
        exact (FlagSet.mem_inter.1 ht).2
      | none =>
        -- every radix has been tried, that of the member of the set as well
        have hnone := List.findSome?_eq_none_iff.1 hradix s.radix (mem_radices _ _)
        have hnot := List.find?_eq_none.1 hnone s (mem_all s)
        exact absurd (FlagSet.mem_inter.2 ⟨mem_ofRadix_radix s, hs⟩) (by simpa using hnot)

/-! ## Styles with a prefix or a suffix -/

theorem mem_prefixed_iff (style : BaseStyle) : style ∈ prefixed ↔ style.before ≠ [] := by
  cases style <;> decide +kernel

theorem mem_suffixed_iff (style : BaseStyle) : style ∈ suffixed ↔ style.after ≠ [] := by
  cases style <;> decide +kernel

theorem exists_mem_of_testBit {styles : FlagSet BaseStyle} {i : Nat} (hlt : styles.bits < 0x4000)
    (h : styles.bits.testBit i = true) : ∃ t : BaseStyle, Flag.bit t = i := by
  have hi : i < 14 := by
    by_contra hge
    have hle : 2 ^ 14 ≤ 2 ^ i := Nat.pow_le_pow_right (by decide) (Nat.not_lt.1 hge)
    rw [Nat.testBit_lt_two_pow (Nat.lt_of_lt_of_le hlt hle)] at h
    cases h
  have hall : ∀ i < 14, ∃ t ∈ all, Flag.bit t = i := by decide
  obtain ⟨t, -, ht⟩ := hall i hi
  exact ⟨t, ht⟩

theorem exists_mem_of_inter {s styles : FlagSet BaseStyle} (hlt : styles.bits < 0x4000)
    (h : (s ∩ styles).isEmpty = false) : ∃ t ∈ s, t ∈ styles := by
  obtain ⟨i, hi⟩ := Nat.exists_testBit_of_ne_zero (beq_eq_false_iff_ne.1 h)
  change (s.bits &&& styles.bits).testBit i = true at hi
  rw [Nat.testBit_and, Bool.and_eq_true] at hi
  obtain ⟨t, rfl⟩ := exists_mem_of_testBit hlt hi.2
  exact ⟨t, hi.1, hi.2⟩

end BaseStyle

namespace Grammar

variable (g : Grammar)

theorem usesPrefix_iff : g.usesPrefix ↔ ∃ t ∈ g.styles, t.before ≠ [] := by
  rw [usesPrefix, Bool.not_eq_true']
  constructor
  · intro h
    obtain ⟨t, ht, hstart⟩ := BaseStyle.exists_mem_of_inter (by decide) h
    exact ⟨t, ht, t.mem_prefixed_iff.1 hstart⟩
  · rintro ⟨t, ht, hbefore⟩
    exact FlagSet.isEmpty_eq_false (FlagSet.mem_inter.2 ⟨ht, t.mem_prefixed_iff.2 hbefore⟩)

theorem usesSuffix_iff : g.usesSuffix ↔ ∃ t ∈ g.styles, t.after ≠ [] := by
  rw [usesSuffix, Bool.not_eq_true']
  constructor
  · intro h
    obtain ⟨t, ht, hsuffix⟩ := BaseStyle.exists_mem_of_inter (by decide) h
    exact ⟨t, ht, t.mem_suffixed_iff.1 hsuffix⟩
  · rintro ⟨t, ht, hafter⟩
    exact FlagSet.isEmpty_eq_false (FlagSet.mem_inter.2 ⟨ht, t.mem_suffixed_iff.2 hafter⟩)

end Grammar

namespace Marked

/-! ## Cutting at the markers -/

theorem before_of_prefixStyle? {c : UInt8} {style : BaseStyle} (h : prefixStyle? c = some style) :
    style.before = [Ascii.zero, c] ∧ style.after = [] := by
  unfold prefixStyle? at h
  split_ifs at h with hx hX hb hB ho hO <;> cases h <;> subst c <;> exact ⟨rfl, rfl⟩

theorem after_of_suffixStyle? {c : UInt8} {style : BaseStyle} (h : suffixStyle? c = some style) :
    style.before = [] ∧ style.after = [c] := by
  unfold suffixStyle? at h
  split_ifs at h with hh hH hb hB ho hO <;> cases h <;> subst c <;> exact ⟨rfl, rfl⟩

/-- The body is cut at the markers of the style. -/
structure Cuts (m : Marked) (body : Bytes) : Prop where
  before : m.before = m.style.before
  after : m.after = m.style.after
  body : m.before ++ (m.digits ++ m.after) = body

theorem Cuts.unmarked (body : Bytes) : Cuts { digits := body } body where
  before := rfl
  after := rfl
  body := List.append_nil body

theorem cuts_ofPrefix (zero : Bool) (body : Bytes) : (ofPrefix zero body).Cuts body := by
  unfold ofPrefix
  split
  · next b c rest =>
    split
    · next hb =>
      split
      · next style hstyle =>
        obtain ⟨hbefore, hafter⟩ := before_of_prefixStyle? hstyle
        exact ⟨by rw [hbefore, hb], hafter.symm, by simp⟩
      · split
        · exact ⟨by rw [hb]; rfl, rfl, by simp⟩
        · exact .unmarked _
    · exact .unmarked _
  · exact .unmarked _

theorem cuts_ofSuffix (body : Bytes) : (ofSuffix body).Cuts body := by
  unfold ofSuffix
  split
  · exact .unmarked _
  · next b hlast =>
    split
    · next style hstyle =>
      obtain ⟨hbefore, hafter⟩ := after_of_suffixStyle? hstyle
      obtain ⟨rest, rfl⟩ := List.getLast?_eq_some_iff.1 hlast
      exact ⟨hbefore.symm, hafter.symm, by simp⟩
    · exact .unmarked _

/-- **A body is cut at the markers of its style.** -/
theorem cuts_ofBody (g : Grammar) (body : Bytes) : (ofBody g body).Cuts body := by
  unfold ofBody
  split
  · exact cuts_ofPrefix _ body
  · split
    · exact cuts_ofSuffix body
    · exact .unmarked body

/-! ## Digits between markers -/

theorem markers_cases (t : BaseStyle) :
    t = .decimal ∨ t = .octPrefixZero ∨
    (∃ c, t.before = [Ascii.zero, c] ∧ t.after = [] ∧ prefixStyle? c = some t) ∨
    (∃ c, t.before = [] ∧ t.after = [c] ∧ suffixStyle? c = some t) := by
  cases t with
  | decimal => exact .inl rfl
  | octPrefixZero => exact .inr (.inl rfl)
  | binPrefixLower | binPrefixUpper | octPrefixLower | octPrefixUpper | hexPrefixLower
  | hexPrefixUpper => exact .inr (.inr (.inl ⟨_, rfl, rfl, rfl⟩))
  | binSuffixLower | binSuffixUpper | octSuffixLower | octSuffixUpper | hexSuffixLower
  | hexSuffixUpper => exact .inr (.inr (.inr ⟨_, rfl, rfl, rfl⟩))

theorem styles_of_readable {r : Radix} {b : UInt8} (hr : r ≠ .hexadecimal)
    (hb : DigitRun.Readable r b) : prefixStyle? b = none ∧ suffixStyle? b = none := by
  have hlow : b.toNat = 0x5F ∨ b.toNat ≤ 0x39 := by
    obtain rfl | hb := hb
    · exact .inl rfl
    · obtain ⟨d, hd⟩ := Option.isSome_iff_exists.1 hb
      have hlt := Radix.digit?_lt hd
      have hten : r.toNat ≤ 10 := by
        cases r with
        | hexadecimal => exact absurd rfl hr
        | binary | octal | decimal => decide
      obtain ⟨hdigit, -⟩ | ⟨-, -, rfl⟩ | ⟨-, -, rfl⟩ := Radix.digit?_cases hd
      · rw [Ascii.isDigit, Bool.and_eq_true, decide_eq_true_eq, decide_eq_true_eq,
          UInt8.le_iff_toNat_le, UInt8.le_iff_toNat_le] at hdigit
        exact .inr hdigit.2
      · omega
      · omega
  have hne : ∀ c : UInt8, c.toNat ≠ 0x5F → 0x39 < c.toNat → b ≠ c := by
    rintro c hne hlt rfl
    omega
  constructor
  · simp [prefixStyle?, hne]
  · simp [suffixStyle?, hne]

theorem ofPrefix_decimal {zero : Bool} {digits : Bytes}
    (hread : ∀ b ∈ digits, DigitRun.Readable .decimal b)
    (hzero : zero → ∀ b rest, digits ≠ Ascii.zero :: b :: rest) :
    ofPrefix zero digits = { digits } := by
  unfold ofPrefix
  split
  · next b c rest =>
    split
    · next hb =>
      obtain ⟨hnone, -⟩ := styles_of_readable (by decide) (hread c (by simp))
      rw [hnone]
      dsimp only
      rw [if_neg fun h => hzero h c rest (by rw [hb])]
    · rfl
  · rfl

theorem ofSuffix_decimal {digits : Bytes} (hread : ∀ b ∈ digits, DigitRun.Readable .decimal b) :
    ofSuffix digits = { digits } := by
  unfold ofSuffix
  split
  · rfl
  · next b hlast =>
    obtain ⟨-, hnone⟩ := styles_of_readable (by decide) (hread b (List.mem_of_getLast? hlast))
    rw [hnone]

/-- **Digits between the markers of a style** of the grammar are read as that style. -/
theorem ofBody_written {g : Grammar} {t : BaseStyle} {digits : Bytes} (ht : t ∈ g.styles)
    (hg : t.after ≠ [] → ¬ g.usesPrefix) (hdigits : digits ≠ [])
    (hread : ∀ b ∈ digits, DigitRun.Readable t.radix b)
    (hzero : t = .decimal → .octPrefixZero ∈ g.styles →
      ∀ b rest, digits ≠ Ascii.zero :: b :: rest) :
    ofBody g (t.before ++ (digits ++ t.after)) = ⟨t, t.before, digits, t.after⟩ := by
  have hfront : t.before ≠ [] → g.usesPrefix := fun h => g.usesPrefix_iff.2 ⟨t, ht, h⟩
  have hback : t.after ≠ [] → g.usesSuffix := fun h => g.usesSuffix_iff.2 ⟨t, ht, h⟩
  obtain rfl | rfl | ⟨c, hbefore, hafter, hstyle⟩ | ⟨c, hbefore, hafter, hstyle⟩ :=
    markers_cases t
  · have hbody : BaseStyle.decimal.before ++ (digits ++ BaseStyle.decimal.after) = digits :=
      List.append_nil digits
    rw [hbody]
    unfold ofBody
    split
    · exact ofPrefix_decimal hread fun h => hzero rfl (of_decide_eq_true h)
    · split
      · exact ofSuffix_decimal hread
      · rfl
  · obtain ⟨c, rest, rfl⟩ := List.exists_cons_of_ne_nil hdigits
    obtain ⟨hnone, -⟩ := styles_of_readable (by decide) (hread c List.mem_cons_self)
    have hbody : BaseStyle.octPrefixZero.before ++ (c :: rest ++ BaseStyle.octPrefixZero.after)
        = Ascii.zero :: c :: rest :=
      congrArg (List.cons Ascii.zero) (List.append_nil (c :: rest))
    rw [hbody, ofBody, if_pos (hfront (List.cons_ne_nil _ _)), decide_eq_true ht]
    simp only [ofPrefix, if_true, hnone]
    rfl
  · have hmarker : t.before ≠ [] := by simp [hbefore]
    rw [hbefore, hafter, List.append_nil, ofBody, if_pos (hfront hmarker)]
    simp only [List.cons_append, List.nil_append, ofPrefix, if_true, hstyle]
  · have hmarker : t.after ≠ [] := by simp [hafter]
    rw [hbefore, hafter, List.nil_append, ofBody, if_neg (hg hmarker), if_pos (hback hmarker),
      ofSuffix, List.getLast?_concat]
    simp only [hstyle, List.dropLast_concat]

end Marked

end WhitespaceAsm.Numeral

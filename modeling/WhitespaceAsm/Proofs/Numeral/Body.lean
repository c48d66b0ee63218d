import WhitespaceAsm.Proofs.Numeral.Denotes
import WhitespaceAsm.Proofs.Numeral.Framing
import WhitespaceAsm.Proofs.Numeral.Markers

/-!
# The grammar of unsigned numerals

What stands behind the sign of a numeral is a number between the markers of a base style. A grammar
without separators reads a literal without errors exactly when its framing is one without errors,
around such a body, and the value is in range.

* **`Body`**: the bodies that a grammar has; `Body.solid`: what they are made of;
* `Body.cut`, **`body_of_cut`**: how they are cut at their markers;
* `errors_ofParts_eq_empty_iff`, **`exists_parse?_eq_of_body`**: literals around them.
-/

namespace WhitespaceAsm.Numeral

/-- **An unsigned numeral** under a grammar, with its magnitude. A grammar with some prefix has no
suffixes, and one with the prefix `0` no other zeros in front of decimal digits. -/
inductive Body (g : Grammar) : Bytes → Nat → Prop
  | withPrefix {t : BaseStyle} {digits : Bytes} {n : Nat} (ht : t ∈ g.styles)
      (hbefore : t.before ≠ []) (h : Denotes t.radix digits n) : Body g (t.before ++ digits) n
  | withSuffix {t : BaseStyle} {digits : Bytes} {n : Nat} (ht : t ∈ g.styles)
      (hafter : t.after ≠ []) (hunmarked : ∀ t' ∈ g.styles, t'.before = [])
      (hfirst : g.decimalFirst → t.radix = .hexadecimal → ∀ b ∈ digits.head?, Ascii.isDigit b)
      (h : Denotes t.radix digits n) : Body g (digits ++ t.after) n
  | plain {digits : Bytes} {n : Nat} (ht : .decimal ∈ g.styles)
      (hzero : .octPrefixZero ∈ g.styles →
        digits = [Ascii.zero] ∨ digits.head? ≠ some Ascii.zero)
      (h : Denotes .decimal digits n) : Body g digits n

/-! ## Solid bodies -/

theorem isIdentifier_markers (style : BaseStyle) :
    (∀ b ∈ style.before, Ascii.isIdentifier b) ∧ ∀ b ∈ style.after, Ascii.isIdentifier b := by
  cases style <;> decide +kernel

theorem solid_body (style : BaseStyle) {r : Radix} {digits : Bytes} {magnitude : Nat}
    (h : DigitRun.Spells r digits magnitude) :
    Framing.Solid (style.before ++ (digits ++ style.after)) := by
  refine ⟨by simp [h.ne_nil], fun b hb => ?_⟩
  obtain hb | hb := List.mem_append.1 hb
  · exact (isIdentifier_markers style).1 b hb
  · obtain hb | hb := List.mem_append.1 hb
    · exact (h.readable b hb).isIdentifier
    · exact (isIdentifier_markers style).2 b hb

/-! ## Cutting a body -/

theorem BaseStyle.before_eq_nil_or_after_eq_nil (style : BaseStyle) :
    style.before = [] ∨ style.after = [] := by
  cases style <;> decide +kernel

theorem BaseStyle.eq_decimal {style : BaseStyle} (hbefore : style.before = [])
    (hafter : style.after = []) : style = .decimal := by
  revert hbefore hafter
  cases style <;> decide +kernel

theorem BaseStyle.isHexSuffix_iff {style : BaseStyle} (hafter : style.after ≠ []) :
    style.isHexSuffix ↔ style.radix = .hexadecimal := by
  revert hafter
  cases style <;> decide +kernel

theorem BaseStyle.after_ne_nil_of_isHexSuffix {style : BaseStyle} (h : style.isHexSuffix) :
    style.after ≠ [] := by
  revert h
  cases style <;> decide +kernel

namespace Marked

theorem after_ofPrefix (zero : Bool) (body : Bytes) : (ofPrefix zero body).after = [] := by
  unfold ofPrefix
  split
  · split
    · split
      · rfl
      · split <;> rfl
    · rfl
  · rfl

theorem zeros_of_ofPrefix {body : Bytes} (h : (ofPrefix true body).style = .decimal) :
    body = [Ascii.zero] ∨ body.head? ≠ some Ascii.zero := by
  cases body with
  | nil => simp
  | cons b rest =>
    by_cases hb : b = Ascii.zero
    · cases rest with
      | nil => exact .inl (by rw [hb])
      | cons c rest =>
        simp only [ofPrefix, hb, if_true] at h
        split at h
        · next style hstyle =>
          have hbefore := (before_of_prefixStyle? hstyle).1
          rw [show style = .decimal from h] at hbefore
          cases hbefore
        · cases h
    · exact .inr (by simpa using hb)

end Marked

theorem isDigit_iff {b : UInt8} (h : digitValue b < 16) : Ascii.isDigit b ↔ ¬ 9 < digitValue b := by
  have hdigit := Radix.hexadecimal_digit?_eq_ite b
  rw [if_pos h] at hdigit
  simp only [Ascii.isDigit, Bool.and_eq_true, decide_eq_true_eq]
  obtain ⟨hb, hvalue⟩ | ⟨hlow, hhigh, hvalue⟩ | ⟨hlow, hhigh, hvalue⟩ := Radix.digit?_cases hdigit
  · simp only [Ascii.isDigit, Bool.and_eq_true, decide_eq_true_eq] at hb
    simp only [UInt8.le_iff_toNat_le, UInt8.reduceToNat] at hb ⊢
    omega
  · simp only [UInt8.le_iff_toNat_le, UInt8.reduceToNat] at hlow hhigh ⊢
    omega
  · simp only [UInt8.le_iff_toNat_le, UInt8.reduceToNat] at hlow hhigh ⊢
    omega

/-- **A letter in front** of digits with a suffix for hexadecimal. -/
theorem startsWithHex_eq_false_iff {g : Grammar} {l : Layout} {n : Nat}
    (h : Denotes l.style.radix l.digits n) :
    startsWithHex g l = false ↔
      (g.decimalFirst → l.style.isHexSuffix → ∀ b ∈ l.digits.head?, Ascii.isDigit b) := by
  rw [startsWithHex]
  by_cases hfirst : g.decimalFirst
  · by_cases hhex : l.style.isHexSuffix
    · have hradix := (BaseStyle.isHexSuffix_iff (BaseStyle.after_ne_nil_of_isHexSuffix hhex)).1 hhex
      cases hdigits : l.digits with
      | nil => simp
      | cons b rest =>
        have hb : digitValue b < 16 := by
          have hlt := h.lt b (by rw [hdigits]; exact List.mem_cons_self)
          rwa [hradix] at hlt
        simp [hfirst, hhex, isDigit_iff hb, Radix.hexadecimal_digit?_eq_ite, hb]
    · simp [hhex]
  · simp [hfirst]

theorem ofBody_of_denotes {g : Grammar} {t : BaseStyle} {digits : Bytes} {n : Nat}
    (ht : t ∈ g.styles) (hg : t.after ≠ [] → ¬ g.usesPrefix) (h : Denotes t.radix digits n)
    (hzero : t = .decimal → .octPrefixZero ∈ g.styles →
      digits = [Ascii.zero] ∨ digits.head? ≠ some Ascii.zero) :
    Marked.ofBody g (t.before ++ (digits ++ t.after)) = ⟨t, t.before, digits, t.after⟩ := by
  refine Marked.ofBody_written ht hg h.ne_nil (DigitRun.denotes_iff_spells.1 h).1.readable ?_
  rintro hdecimal hoctal b rest rfl
  obtain hbare | hhead := hzero hdecimal hoctal
  · cases hbare
  · exact hhead rfl

theorem Body.cut {g : Grammar} {body : Bytes} {n : Nat} (h : Body g body n) :
    (Marked.ofBody g body).style ∈ g.styles ∧
      Denotes (Marked.ofBody g body).style.radix (Marked.ofBody g body).digits n ∧
      (g.decimalFirst → (Marked.ofBody g body).style.isHexSuffix →
        ∀ b ∈ (Marked.ofBody g body).digits.head?, Ascii.isDigit b) := by
  cases h with
  | @withPrefix t digits n ht hbefore h =>
    have hafter := t.before_eq_nil_or_after_eq_nil.resolve_left hbefore
    have hcut := ofBody_of_denotes ht (absurd hafter) h (by rintro rfl; exact absurd rfl hbefore)
    rw [hafter, List.append_nil] at hcut
    rw [hcut]
    exact ⟨ht, h, fun _ hhex => absurd hafter (BaseStyle.after_ne_nil_of_isHexSuffix hhex)⟩
  | @withSuffix t digits n ht hafter hunmarked hfirst h =>
    have hbefore := t.before_eq_nil_or_after_eq_nil.resolve_right hafter
    have huses : ¬ g.usesPrefix := by
      rw [g.usesPrefix_iff]
      rintro ⟨t', ht', hbefore'⟩
      exact hbefore' (hunmarked t' ht')
    have hcut := ofBody_of_denotes ht (fun _ => huses) h (by rintro rfl; exact absurd rfl hafter)
    rw [hbefore, List.nil_append] at hcut
    rw [hcut]
    exact ⟨ht, h, fun hdecimal hhex => hfirst hdecimal ((BaseStyle.isHexSuffix_iff hafter).1 hhex)⟩
  | plain ht hzero h =>
    have hcut := ofBody_of_denotes ht (absurd rfl) h fun _ => hzero
    rw [show BaseStyle.decimal.before ++ (body ++ BaseStyle.decimal.after) = body from
      List.append_nil body] at hcut
    rw [hcut]
    exact ⟨ht, h, fun _ hhex => by cases hhex⟩

theorem body_of_cut {g : Grammar} {body : Bytes} {n : Nat}
    (hstyle : (Marked.ofBody g body).style ∈ g.styles)
    (hdigits : Denotes (Marked.ofBody g body).style.radix (Marked.ofBody g body).digits n)
    (hfirst : g.decimalFirst → (Marked.ofBody g body).style.isHexSuffix →
      ∀ b ∈ (Marked.ofBody g body).digits.head?, Ascii.isDigit b) :
    Body g body n := by
  obtain ⟨hbefore, hafter, hbody⟩ := Marked.cuts_ofBody g body
  -- suffixes are read where there is no prefix, and zeros are left where none is a prefix
  have huses : (Marked.ofBody g body).after ≠ [] → ¬ g.usesPrefix := by
    intro hmarker huses
    rw [Marked.ofBody, if_pos huses] at hmarker
    exact hmarker (Marked.after_ofPrefix _ body)
  have hzero : (Marked.ofBody g body).style = .decimal → .octPrefixZero ∈ g.styles →
      body = [Ascii.zero] ∨ body.head? ≠ some Ascii.zero := by
    intro hdecimal hoctal
    have huses : g.usesPrefix :=
      g.usesPrefix_iff.2 ⟨.octPrefixZero, hoctal, List.cons_ne_nil _ _⟩
    rw [Marked.ofBody, if_pos huses, decide_eq_true hoctal] at hdecimal
    exact Marked.zeros_of_ofPrefix hdecimal
  rw [hbefore, hafter] at hbody
  rw [hafter] at huses
  generalize (Marked.ofBody g body).style = t at hstyle hdigits hfirst hbody huses hzero
  generalize (Marked.ofBody g body).digits = digits at hdigits hfirst hbody
  subst hbody
  by_cases hmarker : t.before = []
  · by_cases hmarker' : t.after = []
    · obtain rfl := BaseStyle.eq_decimal hmarker hmarker'
      rw [hmarker, hmarker', List.nil_append, List.append_nil] at hzero ⊢
      exact .plain hstyle (hzero rfl) hdigits
    · rw [hmarker, List.nil_append]
      refine .withSuffix hstyle hmarker' (fun t' ht' => ?_) (fun hdecimal hradix => ?_) hdigits
      · by_contra hbefore'
        exact huses hmarker' (g.usesPrefix_iff.2 ⟨t', ht', hbefore'⟩)
      · exact hfirst hdecimal ((BaseStyle.isHexSuffix_iff hmarker').2 hradix)
  · rw [t.before_eq_nil_or_after_eq_nil.resolve_left hmarker, List.append_nil]
    exact .withPrefix hstyle hmarker hdigits

theorem Body.solid {g : Grammar} {body : Bytes} {n : Nat} (h : Body g body n) :
    Framing.Solid body := by
  obtain ⟨-, hdigits, -⟩ := h.cut
  obtain ⟨hbefore, hafter, hbody⟩ := Marked.cuts_ofBody g body
  rw [← hbody, hbefore, hafter]
  exact solid_body _ (DigitRun.denotes_iff_spells.1 hdigits).1

/-! ## Literals -/

theorem errors_ofParts_eq_empty_iff {g : Grammar} {literal : Bytes} {l : Layout} {run : DigitRun}
    {magnitude : Nat} :
    (ofParts g literal l run magnitude).errors = ∅ ↔
      l.errors = ∅ ∧ startsWithHex g l = false ∧ run.invalid = false ∧ l.digits ≠ [] ∧
        (run.separated → g.separators) ∧ g.inRange (l.sign.apply magnitude) := by
  change _ ∪ _ ∪ _ ∪ _ ∪ _ ∪ flagIf (¬ g.inRange (l.sign.apply magnitude)) _ = ∅ ↔ _
  simp only [FlagSet.union_eq_empty_iff, flagIf_eq_empty_iff, Bool.not_eq_true, Bool.not_eq_false,
    not_and, and_assoc, ne_eq]

/-- **A literal is read without errors** when its framing has none and is put around a body of the
grammar, and the value is in range. -/
theorem exists_parse?_eq_of_body {g : Grammar} (hsep : g.separators = false) (literal : Bytes) :
    let f := Framing.ofLiteral g.signs literal
    ∃ n, parse? g literal = .ok n ∧ ∀ value,
      n.errors = ∅ ∧ n.value = value ↔
        f.errors = ∅ ∧ ∃ magnitude, Body g f.body magnitude ∧ f.sign.apply magnitude = value ∧
          g.inRange value := by
  intro f
  obtain ⟨magnitude, hvalue, hparse⟩ := exists_parse?_eq g literal
  have hdenotes : ∀ {n}, Denotes (Marked.ofBody g f.body).style.radix
      (Marked.ofBody g f.body).digits n ↔ _ := DigitRun.denotes_iff_of_value? hvalue
  refine ⟨_, hparse, fun value => ?_⟩
  rw [errors_ofParts_eq_empty_iff, hsep]
  constructor
  · rintro ⟨⟨herrors, hfirst, hinvalid, hdigits, hseparated, hrange⟩, rfl⟩
    obtain ⟨hframing, hstyle⟩ := FlagSet.union_eq_empty_iff.1 herrors
    have hplain := Bool.eq_false_iff.2 fun h => Bool.false_ne_true (hseparated h)
    have h := hdenotes.2 ⟨hdigits, hinvalid, hplain, rfl⟩
    refine ⟨hframing, magnitude, body_of_cut ?_ h ?_, rfl, hrange⟩
    · exact not_not.1 (flagIf_eq_empty_iff.1 hstyle)
    · exact (startsWithHex_eq_false_iff h).1 hfirst
  · rintro ⟨hframing, n, hbody, rfl, hrange⟩
    obtain ⟨hstyle, h, hfirst⟩ := hbody.cut
    obtain ⟨hdigits, hinvalid, hseparated, rfl⟩ := hdenotes.1 h
    refine ⟨⟨?_, ?_, hinvalid, hdigits, fun htrue => ?_, hrange⟩, rfl⟩
    · exact FlagSet.union_eq_empty_iff.2 ⟨hframing, flagIf_eq_empty (not_not.2 hstyle)⟩
    · exact (startsWithHex_eq_false_iff h).2 hfirst
    · exact absurd (hseparated.symm.trans htrue) Bool.false_ne_true

end WhitespaceAsm.Numeral

import WhitespaceAsm.Numeral.Convert
import WhitespaceAsm.Proofs.Numeral.Digits

/-!
# Digits that spell a magnitude

The digits of a numeral spell the same magnitude with other zeros in front, and so do the digits
that are printed from the magnitude.

* `DigitRun.Spells.zeros`, **`DigitRun.spells_digits`**, `DigitRun.spells_replicate`: the digits
  that are written;
* **`DigitRun.Spells.topHexDigitIsLetter`**: digits that begin with a letter.
-/

namespace WhitespaceAsm.Numeral.DigitRun

/-- The digits are read without an error, and denote the magnitude. -/
structure Spells (r : Radix) (digits : Bytes) (magnitude : Nat) : Prop where
  ne_nil : digits ≠ []
  readable : ∀ b ∈ digits, Readable r b
  value? : (read r digits).value? r = some magnitude

theorem readable_zero (r : Radix) : Readable r Ascii.zero := .inr (by rw [Radix.digit?_zero]; rfl)

theorem readable_of_read {r : Radix} {digits : Bytes} (h : (read r digits).invalid = false) :
    ∀ b ∈ digits, Readable r b := by
  have hsplit := (eq_zeros_append digits).1
  rw [hsplit]
  intro b hb
  obtain hb | hb := List.mem_append.1 hb
  · rw [List.eq_of_mem_replicate hb]
    exact readable_zero r
  · exact readable_of_readSignificant h b hb

/-! ## Zeros in front -/

section Zeros

variable {r : Radix} {k k' magnitude : Nat} {s : Bytes}

theorem invalid_of_readable (h : ∀ b ∈ s, Readable r b) :
    (readSignificant r s).invalid = false := by
  induction s with
  | nil => rfl
  | cons b rest ih =>
    obtain ⟨hb, hrest⟩ := List.forall_mem_cons.1 h
    rw [readSignificant]
    split
    · exact ih hrest
    · next hsep =>
      rw [if_pos (hb.resolve_left hsep)]
      exact ih hrest

theorem Spells.invalid {digits : Bytes} (h : Spells r digits magnitude) :
    (read r digits).invalid = false :=
  invalid_of_readable fun b hb => h.readable b (List.mem_of_mem_drop hb)

variable (hs : s.head? ≠ some Ascii.zero)

include hs

theorem Spells.ofDigits? (h : Spells r (List.replicate k Ascii.zero ++ s) magnitude) :
    r.ofDigits? (readSignificant r s).significant = some magnitude := by
  have hvalue := h.value?
  rwa [read_zeros r k hs] at hvalue

theorem spells_of_ofDigits? (hne : s = [] → k ≠ 0) (hread : ∀ b ∈ s, Readable r b)
    (hvalue : r.ofDigits? (readSignificant r s).significant = some magnitude) :
    Spells r (List.replicate k Ascii.zero ++ s) magnitude where
  ne_nil h := by
    obtain ⟨hzeros, hnil⟩ := List.append_eq_nil_iff.1 h
    exact hne hnil (by simpa using hzeros)
  readable b hb := by
    obtain hb | hb := List.mem_append.1 hb
    · rw [List.eq_of_mem_replicate hb]
      exact readable_zero r
    · exact hread b hb
  value? := by rwa [read_zeros r k hs]

theorem Spells.zeros (h : Spells r (List.replicate k Ascii.zero ++ s) magnitude)
    (hne : s = [] → k' ≠ 0) :
    Spells r (List.replicate k' Ascii.zero ++ s) magnitude :=
  spells_of_ofDigits? hs hne (fun b hb => h.readable b (List.mem_append_right _ hb))
    (h.ofDigits? hs)

/-- **Digits spell zero** when they are zeros, unless separators stand between them. -/
theorem Spells.eq_nil_iff (h : Spells r (List.replicate k Ascii.zero ++ s) magnitude)
    (hsep : (readSignificant r s).separated = false) : s = [] ↔ magnitude = 0 := by
  have hvalue := h.ofDigits? hs
  cases s with
  | nil => simpa [readSignificant, Radix.ofDigits?, eq_comm] using hvalue
  | cons b rest =>
    refine iff_of_false (List.cons_ne_nil b rest) ?_
    have hb := h.readable b (List.mem_append_right _ List.mem_cons_self)
    rw [readSignificant] at hsep hvalue
    split at hsep
    · cases hsep
    · next hne =>
      have hdigit := hb.resolve_left hne
      rw [if_neg hne, if_pos hdigit] at hvalue
      obtain ⟨d, hd⟩ := Option.isSome_iff_exists.1 hdigit
      have hzero : d ≠ 0 := by
        rintro rfl
        exact hs (congrArg some (Radix.eq_zero_of_digit? hd))
      exact (Radix.digits_of_ofDigits? hd hzero hvalue).1

end Zeros

/-! ## Printed digits -/

/-- **Printed digits** behind any number of zeros. -/
theorem spells_digits (r : Radix) (zeros : Nat) {magnitude : Nat} (h : magnitude ≠ 0) :
    (r.digits magnitude).head? ≠ some Ascii.zero ∧
      Spells r (List.replicate zeros Ascii.zero ++ r.digits magnitude) magnitude := by
  obtain ⟨d, ds, hds, hd, hlt⟩ := Radix.exists_digits_eq (r := r) h
  have hhead : (r.digits magnitude).head? ≠ some Ascii.zero := by
    rw [hds]
    intro hzero
    have hdigit := Radix.digit?_digitByte hlt
    rw [Option.some.inj hzero, Radix.digit?_zero] at hdigit
    exact hd (Option.some.inj hdigit).symm
  refine ⟨hhead, spells_of_ofDigits? hhead (fun hnil => ?_)
    (fun b hb => .inr (Radix.isSome_digit?_of_mem_digits hb)) ?_⟩
  · rw [hds] at hnil
    cases hnil
  · rw [readSignificant_of_digits fun b hb => Radix.isSome_digit?_of_mem_digits hb]
    exact Radix.ofDigits?_digits r magnitude

theorem spells_replicate (r : Radix) {zeros : Nat} (h : zeros ≠ 0) :
    Spells r (List.replicate zeros Ascii.zero) 0 := by
  have hspells := spells_of_ofDigits? (r := r) (s := []) (k := zeros) (by simp) (fun _ => h)
    (by simp) rfl
  rwa [List.append_nil] at hspells

/-! ## A letter in front -/

theorem le_digitByte {d : Nat} (h : d < 16) : 0x61 ≤ Radix.digitByte d ↔ 9 < d := by
  have hall : ∀ d < 16, (0x61 ≤ Radix.digitByte d ↔ 9 < d) := by decide
  exact hall d h

theorem topHexDigitIsLetter_iff {d magnitude : Nat} {ds : Bytes} (h : magnitude ≠ 0) (hd : d < 16)
    (hds : Radix.hexadecimal.digits magnitude = Radix.digitByte d :: ds) :
    topHexDigitIsLetter magnitude ↔ 9 < d := by
  rw [topHexDigitIsLetter, hds, List.head?_cons, Option.any_some, Bool.and_eq_true,
    decide_eq_true_eq, le_digitByte hd]
  simp [h]

theorem Spells.topHexDigitIsLetter {b : UInt8} {rest : Bytes} {d magnitude : Nat}
    (h : Spells .hexadecimal (b :: rest) magnitude) (hb : Radix.hexadecimal.digit? b = some d)
    (hd : 9 < d) : topHexDigitIsLetter magnitude := by
  have hzero : (b :: rest).head? ≠ some Ascii.zero := by
    rintro heq
    rw [Option.some.inj heq, Radix.digit?_zero] at hb
    cases hb
    omega
  have hsep : b ≠ Ascii.underscore := by
    rintro rfl
    rw [Radix.digit?_underscore] at hb
    cases hb
  have hvalue := Spells.ofDigits? (k := 0) hzero h
  rw [readSignificant, if_neg hsep, if_pos (by rw [hb]; rfl)] at hvalue
  obtain ⟨hne, ds, hds⟩ := Radix.digits_of_ofDigits? hb (by omega) hvalue
  exact (topHexDigitIsLetter_iff hne (Radix.digit?_lt hb) hds).2 hd

end WhitespaceAsm.Numeral.DigitRun

import WhitespaceAsm.Proofs.Numeral.Digits
import WhitespaceAsm.Proofs.Numeral.Framing

/-!
# Numerals without digits

A numeral is said to have no digits when nothing stands between its markers. A separator or a bad
digit there is enough to avoid that, although neither is a digit that is read.

* **`parse?_noDigits`**: when a numeral has no digits; `parse?_separatorAlone`: a literal without a
  digit that is read without errors.
-/

namespace WhitespaceAsm.Numeral

/-! ## Digits of which nothing is read -/

namespace DigitRun

theorem zeros_read_eq_zero_iff (r : Radix) (digits : Bytes) :
    (read r digits).zeros = 0 ↔ digits.head? ≠ some Ascii.zero := by
  cases digits with
  | nil => simp [read]
  | cons b rest => by_cases hb : b = Ascii.zero <;> simp [read, hb]

theorem read_of_head {r : Radix} {digits : Bytes} (h : digits.head? ≠ some Ascii.zero) :
    read r digits = { readSignificant r digits with zeros := 0 } := read_zeros r 0 h

theorem readSignificant_eq_nil_iff (r : Radix) (s : Bytes) :
    s = [] ↔ (readSignificant r s).significant = [] ∧ (readSignificant r s).separated = false ∧
      (readSignificant r s).invalid = false := by
  cases s with
  | nil => exact iff_of_true rfl ⟨rfl, rfl, rfl⟩
  | cons b rest =>
    refine iff_of_false (List.cons_ne_nil b rest) ?_
    rintro ⟨hsignificant, hseparated, hinvalid⟩
    rw [readSignificant] at hsignificant hseparated hinvalid
    split at hseparated
    · cases hseparated
    · next hsep =>
      rw [if_neg hsep] at hsignificant hinvalid
      split at hinvalid
      · next hdigit =>
        rw [if_pos hdigit] at hsignificant
        exact List.cons_ne_nil b _ hsignificant
      · cases hinvalid

theorem forall_separator_readSignificant_iff (r : Radix) (s : Bytes) :
    (∀ b ∈ s, b = Ascii.underscore) ↔
      (readSignificant r s).significant = [] ∧ (readSignificant r s).invalid = false := by
  induction s with
  | nil => exact iff_of_true (List.forall_mem_nil _) ⟨rfl, rfl⟩
  | cons b rest ih =>
    rw [List.forall_mem_cons, readSignificant]
    split
    · next hsep => exact (and_iff_right hsep).trans ih
    · next hsep =>
      refine iff_of_false (fun h => hsep h.1) ?_
      split
      · exact fun h => List.cons_ne_nil b _ h.1
      · exact fun h => by cases h.2

theorem eq_nil_iff (r : Radix) (digits : Bytes) :
    digits = [] ↔ (read r digits).zeros = 0 ∧ (read r digits).significant = [] ∧
      (read r digits).separated = false ∧ (read r digits).invalid = false := by
  rw [zeros_read_eq_zero_iff]
  by_cases hhead : digits.head? = some Ascii.zero
  · refine iff_of_false ?_ fun h => h.1 hhead
    rintro rfl
    cases hhead
  · rw [and_iff_right hhead, read_of_head hhead]
    exact readSignificant_eq_nil_iff r digits

/-- **No digit is read, and none is bad**, where there are separators only. -/
theorem forall_separator_iff (r : Radix) (digits : Bytes) :
    (∀ b ∈ digits, b = Ascii.underscore) ↔ (read r digits).zeros = 0 ∧
      (read r digits).significant = [] ∧ (read r digits).invalid = false := by
  rw [zeros_read_eq_zero_iff]
  by_cases hhead : digits.head? = some Ascii.zero
  · refine iff_of_false (fun h => ?_) fun h => h.1 hhead
    exact absurd (h Ascii.zero (List.mem_of_mem_head? hhead)) (by decide)
  · rw [and_iff_right hhead, read_of_head hhead]
    exact forall_separator_readSignificant_iff r digits

end DigitRun

/-! ## Errors -/

namespace Framing

section Errors

variable {e : Error} (hsign : e ≠ .invalidSign) (hparen : e ≠ .unpairedParen)

include hsign hparen

theorem mem_errors_of_peelOne? {f g : Framing} (h : f.peelOne? = some g) (he : e ∈ g.errors) :
    e ∈ f.errors := by
  have hflag : ∀ {c : Prop} [Decidable c], e ∉ flagIf c Error.invalidSign := fun hmem =>
    hsign (mem_flagIf_error.1 hmem).2.symm
  have hsingle : e ∉ ({.invalidSign} : FlagSet Error) := fun hmem =>
    hsign (Error.bit_inj.1 (FlagSet.mem_singleton.1 hmem)).symm
  have hsingle' : e ∉ ({.unpairedParen} : FlagSet Error) := fun hmem =>
    hparen (Error.bit_inj.1 (FlagSet.mem_singleton.1 hmem)).symm
  obtain ⟨rest, -, rfl⟩ | ⟨rest, -, rfl⟩ | ⟨rest, -, rfl⟩ | ⟨rest, -, rfl⟩ | ⟨rest, -, rfl⟩ :=
    peelOne?_cases h
  · exact (FlagSet.mem_union.1 he).resolve_right hflag
  · exact (FlagSet.mem_union.1 he).resolve_right hsingle
  · exact (FlagSet.mem_union.1 he).resolve_right hflag
  · have he := (FlagSet.mem_union.1 he).resolve_right hsingle'
    exact (FlagSet.mem_union.1 he).resolve_right hflag
  · exact (FlagSet.mem_union.1 he).resolve_right hsingle'

theorem mem_errors_of_peel {f : Framing} (he : e ∈ f.peel.errors) : e ∈ f.errors := by
  induction f using peel.induct with
  | case1 f hnone => rwa [peel_of_none hnone] at he
  | case2 f g hsome ih =>
    rw [peel_of_some hsome] at he
    exact mem_errors_of_peelOne? hsign hparen hsome (ih he)

theorem notMem_errors_ofLiteral (signs : SignStyle) (literal : Bytes) :
    e ∉ (ofLiteral signs literal).errors := by
  have hofSign : e ∉ (ofSign signs literal).errors := by
    cases literal with
    | nil => exact FlagSet.not_mem_empty e
    | cons b rest =>
      rw [ofSign]
      split
      · exact FlagSet.not_mem_empty e
      · split
        · exact fun hmem => hsign (mem_flagIf_error.1 hmem).2.symm
        · exact FlagSet.not_mem_empty e
  cases signs with
  | haskell => exact fun he => FlagSet.not_mem_empty e (mem_errors_of_peel hsign hparen he)
  | minus => exact hofSign
  | plusMinus => exact hofSign

end Errors

end Framing

theorem notMem_errors_layout {e : Error} (hsign : e ≠ .invalidSign) (hparen : e ≠ .unpairedParen)
    (hbase : e ≠ .invalidBase) (g : Grammar) (literal : Bytes) :
    e ∉ (Layout.ofLiteral g literal).errors := by
  intro he
  obtain he | he := FlagSet.mem_union.1 he
  · exact Framing.notMem_errors_ofLiteral hsign hparen g.signs literal he
  · exact hbase (mem_flagIf_error.1 he).2.symm

/-- **The errors about digits.** -/
theorem mem_errors_ofParts_iff {g : Grammar} {literal : Bytes} {run : DigitRun} {magnitude : Nat} :
    let n := ofParts g literal (Layout.ofLiteral g literal) run magnitude
    (.invalidDigit ∈ n.errors ↔ run.invalid) ∧
      (.noDigits ∈ n.errors ↔ (Layout.ofLiteral g literal).digits = []) ∧
      (.invalidSeparator ∈ n.errors ↔ run.separated ∧ ¬ g.separators) := by
  have hlayout := fun e hsign hparen hbase =>
    notMem_errors_layout (e := e) hsign hparen hbase g literal
  have hinvalid := hlayout .invalidDigit (by decide) (by decide) (by decide)
  have hdigits := hlayout .noDigits (by decide) (by decide) (by decide)
  have hseparator := hlayout .invalidSeparator (by decide) (by decide) (by decide)
  simp [ofParts, FlagSet.mem_union, mem_flagIf_error, hinvalid, hdigits, hseparator]

/-! ## Numerals without digits -/

/-- **When a numeral has no digits.** The flag is set when nothing at all stands between the
markers; separators alone do not set it. -/
theorem parse?_noDigits (g : Grammar) (literal : Bytes) :
    let digits := (Layout.ofLiteral g literal).digits
    let run := digitRun g literal
    ∃ n, parse? g literal = .ok n ∧ n.leadingZeros = run.zeros ∧
      (.noDigits ∈ n.errors ↔ digits = []) ∧
      (.noDigits ∈ n.errors ↔ n.leadingZeros = 0 ∧ run.significant = [] ∧ n.separated = false ∧
        .invalidDigit ∉ n.errors) ∧
      (n.leadingZeros = 0 ∧ run.significant = [] ∧ .invalidDigit ∉ n.errors ↔
        ∀ b ∈ digits, b = Ascii.underscore) ∧
      (n.errors = ∅ ∧ n.leadingZeros = 0 ∧ run.significant = [] →
        g.separators ∧ digits ≠ [] ∧ ∀ b ∈ digits, b = Ascii.underscore) := by
  intro digits run
  obtain ⟨magnitude, -, hparse⟩ := exists_parse?_eq g literal
  obtain ⟨hinvalid, hdigits, hseparator⟩ := @mem_errors_ofParts_iff g literal run magnitude
  have hall := DigitRun.forall_separator_iff (Layout.ofLiteral g literal).style.radix digits
  refine ⟨ofParts g literal (Layout.ofLiteral g literal) run magnitude, hparse, rfl, hdigits, ?_,
    ?_, ?_⟩
  · rw [hdigits, hinvalid, Bool.not_eq_true]
    exact DigitRun.eq_nil_iff _ digits
  · rw [hinvalid, Bool.not_eq_true]
    exact hall.symm
  · rintro ⟨hnone, hzeros, hsignificant⟩
    rw [hnone] at hinvalid hdigits hseparator
    have hvalid : run.invalid = false :=
      Bool.eq_false_iff.2 fun h => FlagSet.not_mem_empty _ (hinvalid.2 h)
    have hne : digits ≠ [] := fun h => FlagSet.not_mem_empty _ (hdigits.2 h)
    have hseparated : run.separated := by
      by_contra hplain
      exact hne ((DigitRun.eq_nil_iff _ digits).2
        ⟨hzeros, hsignificant, Bool.eq_false_iff.2 hplain, hvalid⟩)
    refine ⟨?_, hne, hall.2 ⟨hzeros, hsignificant, hvalid⟩⟩
    by_contra hnot
    exact FlagSet.not_mem_empty _ (hseparator.2 ⟨hseparated, hnot⟩)

/-- **A separator alone** is a literal without a digit, and is read without errors. -/
theorem parse?_separatorAlone :
    let g : Grammar := { separators := true }
    let n := parse g (ascii "_")
    parse? g (ascii "_") = .ok n ∧ n.leadingZeros = 0 ∧
      (digitRun g (ascii "_")).significant = [] ∧ n.errors = ∅ ∧
      ¬ (.noDigits ∈ n.errors ↔
        n.leadingZeros = 0 ∧ (digitRun g (ascii "_")).significant = []) := by
  intro g n
  have herrors : n.errors = ∅ := by decide +kernel
  have hzeros : n.leadingZeros = 0 := by decide +kernel
  have hsignificant : (digitRun g (ascii "_")).significant = [] := by decide +kernel
  refine ⟨parse?_eq_parse g _, hzeros, hsignificant, herrors, fun h => ?_⟩
  exact FlagSet.not_mem_empty _ (herrors ▸ h.2 ⟨hzeros, hsignificant⟩)

end WhitespaceAsm.Numeral

import Mathlib.Data.List.Induction
import Mathlib.Data.List.TakeWhile
import WhitespaceAsm.Numeral.Parse
import WhitespaceAsm.Proofs.Bytes

/-!
# Digits of numbers

Digits that are printed denote the number that they are printed from, and a number is printed with
the first digit that it has been read from. Digits of a numeral are read as zeros, and then whatever
follows them.

* **`Radix.ofDigits?_digits`**, `Radix.digits_of_ofDigits?`: strings of digits;
* `DigitRun.Readable`, **`DigitRun.read_zeros`**, `DigitRun.eq_zeros_append`: the digits of a
  numeral;
* `parse?_of_value?`, **`exists_parse?_eq`**, `parse?_eq_parse`: every numeral is read.
-/

namespace WhitespaceAsm.Numeral

namespace Radix

theorem toNat_pos (r : Radix) : 0 < r.toNat := Nat.lt_of_lt_of_le Nat.zero_lt_two r.two_le_toNat

/-! ## Single digits -/

theorem digit?_lt {r : Radix} {b : UInt8} {d : Nat} (h : r.digit? b = some d) : d < r.toNat := by
  rw [digit?, Option.filter_eq_some_iff] at h
  simpa using h.2

theorem digit?_digitByte {r : Radix} {d : Nat} (h : d < r.toNat) :
    r.digit? (digitByte d) = some d := by
  have hall : ∀ d < r.toNat, r.digit? (digitByte d) = some d := by
    cases r <;> decide
  exact hall d h

theorem digit?_cases {r : Radix} {b : UInt8} {d : Nat} (h : r.digit? b = some d) :
    (Ascii.isDigit b ∧ d = b.toNat - 0x30) ∨ (0x61 ≤ b ∧ b ≤ 0x66 ∧ d = b.toNat - 0x61 + 10) ∨
      (0x41 ≤ b ∧ b ≤ 0x46 ∧ d = b.toNat - 0x41 + 10) := by
  rw [digit?, Option.filter_eq_some_iff] at h
  obtain ⟨h, -⟩ := h
  split at h
  · next hdigit => exact .inl ⟨hdigit, (Option.some.inj h).symm⟩
  · split at h
    · next hlower => exact .inr (.inl ⟨hlower.1, hlower.2, (Option.some.inj h).symm⟩)
    · split at h
      · next hupper => exact .inr (.inr ⟨hupper.1, hupper.2, (Option.some.inj h).symm⟩)
      · cases h

theorem isIdentifier_of_digit? {r : Radix} {b : UInt8} (h : (r.digit? b).isSome) :
    Ascii.isIdentifier b := by
  obtain ⟨d, hd⟩ := Option.isSome_iff_exists.1 h
  simp only [Ascii.isIdentifier, Ascii.isLetter, Ascii.isUpper, Ascii.isLower, Bool.or_eq_true,
    Bool.and_eq_true, decide_eq_true_eq]
  obtain ⟨hdigit, -⟩ | ⟨hlow, hhigh, -⟩ | ⟨hlow, hhigh, -⟩ := digit?_cases hd
  · exact .inl (.inr hdigit)
  · exact .inl (.inl (.inr ⟨hlow, UInt8.le_trans hhigh (by decide)⟩))
  · exact .inl (.inl (.inl ⟨hlow, UInt8.le_trans hhigh (by decide)⟩))

theorem digit?_underscore (r : Radix) : r.digit? Ascii.underscore = none := by
  cases r <;> rfl

theorem digit?_zero (r : Radix) : r.digit? Ascii.zero = some 0 := by
  cases r <;> rfl

theorem eq_zero_of_digit? {r : Radix} {b : UInt8} (h : r.digit? b = some 0) : b = Ascii.zero := by
  obtain ⟨hdigit, hvalue⟩ | ⟨-, -, hvalue⟩ | ⟨-, -, hvalue⟩ := digit?_cases h
  · rw [Ascii.isDigit, Bool.and_eq_true, decide_eq_true_eq, UInt8.le_iff_toNat_le] at hdigit
    have hlow : Ascii.zero.toNat = 0x30 := rfl
    have hbound : (0x30 : UInt8).toNat = 0x30 := rfl
    exact UInt8.toNat_inj.1 (by omega)
  · omega
  · omega

/-! ## Strings of digits -/

theorem ofDigits?_append (r : Radix) (ds : Bytes) (b : UInt8) :
    r.ofDigits? (ds ++ [b])
      = (r.ofDigits? ds).bind fun n => (r.digit? b).map (n * r.toNat + ·) := by
  rw [ofDigits?, ofDigits?, List.foldlM_append]
  refine congrArg (Option.bind _) (funext fun n => ?_)
  cases h : r.digit? b with
  | none => simp [h]
  | some d => simp [h]

/-- **Digits that are printed** denote the number. -/
theorem ofDigits?_digits (r : Radix) (n : Nat) : r.ofDigits? (r.digits n) = some n := by
  induction n using digits.induct r with
  | case1 n h =>
    rw [digits, if_pos h, ← List.nil_append [digitByte n], ofDigits?_append, digit?_digitByte h]
    simp [ofDigits?]
  | case2 n h ih =>
    have hmod : n % r.toNat < r.toNat := Nat.mod_lt _ r.toNat_pos
    rw [digits, if_neg h, ofDigits?_append, ih, digit?_digitByte hmod]
    exact congrArg some (Nat.div_add_mod' n r.toNat)

theorem isSome_digit?_of_mem_digits {r : Radix} {n : Nat} {b : UInt8} (hb : b ∈ r.digits n) :
    (r.digit? b).isSome := by
  induction n using digits.induct r with
  | case1 n h =>
    rw [digits, if_pos h, List.mem_singleton] at hb
    rw [hb, digit?_digitByte h]
    rfl
  | case2 n h ih =>
    have hmod : n % r.toNat < r.toNat := Nat.mod_lt _ r.toNat_pos
    rw [digits, if_neg h, List.mem_append, List.mem_singleton] at hb
    obtain hb | rfl := hb
    · exact ih hb
    · rw [digit?_digitByte hmod]
      rfl

theorem exists_digits_eq {r : Radix} {n : Nat} (hn : n ≠ 0) :
    ∃ d ds, r.digits n = digitByte d :: ds ∧ d ≠ 0 ∧ d < r.toNat := by
  induction n using digits.induct r with
  | case1 n h => exact ⟨n, [], by rw [digits, if_pos h], hn, h⟩
  | case2 n h ih =>
    have hdiv : n / r.toNat ≠ 0 := by
      rw [ne_eq, Nat.div_eq_zero_iff]
      have := r.two_le_toNat
      omega
    obtain ⟨d, ds, hds, hd⟩ := ih hdiv
    exact ⟨d, ds ++ [digitByte (n % r.toNat)], by rw [digits, if_neg h, hds]; rfl, hd⟩

theorem digits_zero (r : Radix) : r.digits 0 = [Ascii.zero] := by
  rw [digits, if_pos r.toNat_pos]
  rfl

/-- **A number is printed with the first digit** that it has been read from. -/
theorem digits_of_ofDigits? {r : Radix} {b : UInt8} {d n : Nat} {ds : Bytes}
    (hb : r.digit? b = some d) (hd : d ≠ 0) (h : r.ofDigits? (b :: ds) = some n) :
    n ≠ 0 ∧ ∃ es, r.digits n = digitByte d :: es := by
  induction ds using List.reverseRecOn generalizing n with
  | nil =>
    rw [← List.nil_append [b], ofDigits?_append, hb] at h
    obtain rfl : d = n := by simpa [ofDigits?] using h
    exact ⟨hd, [], by rw [digits, if_pos (digit?_lt hb)]⟩
  | append_singleton ds c ih =>
    rw [← List.cons_append, ofDigits?_append, Option.bind_eq_some_iff] at h
    obtain ⟨m, hm, hn⟩ := h
    obtain ⟨e, he, rfl⟩ := Option.map_eq_some_iff.1 hn
    obtain ⟨hne, es, hes⟩ := ih hm
    have htwo := r.two_le_toNat
    have hlt := digit?_lt he
    have hge : r.toNat ≤ m * r.toNat := Nat.le_mul_of_pos_left _ (Nat.pos_of_ne_zero hne)
    have hdiv : (m * r.toNat + e) / r.toNat = m := by
      rw [Nat.mul_comm, Nat.mul_add_div (by omega), Nat.div_eq_of_lt hlt, Nat.add_zero]
    refine ⟨by omega, es ++ [digitByte ((m * r.toNat + e) % r.toNat)], ?_⟩
    rw [digits, if_neg (by omega), hdiv, hes]
    rfl

end Radix

/-! ## Digits of a numeral -/

namespace DigitRun

/-- A separator, or a digit of the radix. -/
def Readable (r : Radix) (b : UInt8) : Prop := b = Ascii.underscore ∨ (r.digit? b).isSome

theorem Readable.isIdentifier {r : Radix} {b : UInt8} (h : Readable r b) :
    Ascii.isIdentifier b := by
  obtain rfl | h := h
  · decide
  · exact Radix.isIdentifier_of_digit? h

theorem readable_of_readSignificant {r : Radix} {s : Bytes}
    (h : (readSignificant r s).invalid = false) : ∀ b ∈ s, Readable r b := by
  induction s with
  | nil => simp
  | cons b rest ih =>
    rw [readSignificant] at h
    by_cases hsep : b = Ascii.underscore
    · rw [if_pos hsep] at h
      exact List.forall_mem_cons.2 ⟨.inl hsep, ih h⟩
    · rw [if_neg hsep] at h
      by_cases hdigit : (r.digit? b).isSome
      · rw [if_pos hdigit] at h
        exact List.forall_mem_cons.2 ⟨.inr hdigit, ih h⟩
      · rw [if_neg hdigit] at h
        cases h

/-- **The digits that are read** denote a number. -/
theorem exists_ofDigits? (r : Radix) (s : Bytes) :
    ∃ n, r.ofDigits? (readSignificant r s).significant = some n := by
  have hall : ∀ b ∈ (readSignificant r s).significant, (r.digit? b).isSome := by
    induction s with
    | nil => simp [readSignificant]
    | cons b rest ih =>
      rw [readSignificant]
      split
      · exact ih
      · split
        · next hdigit => exact List.forall_mem_cons.2 ⟨hdigit, ih⟩
        · simp
  generalize (readSignificant r s).significant = ds at hall
  induction ds using List.reverseRecOn with
  | nil => exact ⟨0, rfl⟩
  | append_singleton ds b ih =>
    obtain ⟨n, hn⟩ := ih fun b hb => hall b (List.mem_append_left _ hb)
    obtain ⟨d, hd⟩ := Option.isSome_iff_exists.1 (hall b (by simp))
    rw [Radix.ofDigits?_append, hn, hd]
    exact ⟨_, rfl⟩

theorem readSignificant_of_digits {r : Radix} {s : Bytes} (h : ∀ b ∈ s, (r.digit? b).isSome) :
    readSignificant r s = { significant := s } := by
  induction s with
  | nil => rfl
  | cons b rest ih =>
    obtain ⟨hb, hrest⟩ := List.forall_mem_cons.1 h
    have hsep : b ≠ Ascii.underscore := by
      rintro rfl
      rw [Radix.digit?_underscore] at hb
      cases hb
    rw [readSignificant, if_neg hsep, if_pos hb, ih hrest]

theorem read_zeros (r : Radix) (k : Nat) {s : Bytes} (hs : s.head? ≠ some Ascii.zero) :
    read r (List.replicate k Ascii.zero ++ s) = { readSignificant r s with zeros := k } := by
  have htake : (List.replicate k Ascii.zero ++ s).takeWhile (· == Ascii.zero)
      = List.replicate k Ascii.zero := by
    rw [List.takeWhile_append_of_pos fun b hb => beq_iff_eq.2 (List.eq_of_mem_replicate hb)]
    cases s with
    | nil => simp
    | cons b rest =>
      rw [List.takeWhile_cons_of_neg (by simpa using hs), List.append_nil]
  rw [read, htake]
  dsimp only
  rw [List.drop_left, List.length_replicate]

theorem eq_zeros_append (digits : Bytes) :
    let zeros := (digits.takeWhile (· == Ascii.zero)).length
    digits = List.replicate zeros Ascii.zero ++ digits.drop zeros ∧
      (digits.drop zeros).head? ≠ some Ascii.zero := by
  intro zeros
  have hsplit : digits.takeWhile (· == Ascii.zero) ++ digits.drop zeros = digits :=
    List.prefix_iff_eq_append.1 (List.takeWhile_prefix _)
  have hzeros : digits.takeWhile (· == Ascii.zero) = List.replicate zeros Ascii.zero :=
    List.eq_replicate_iff.2 ⟨rfl, fun b hb => by simpa using List.mem_takeWhile_imp hb⟩
  refine ⟨by rw [← hzeros, hsplit], fun h => ?_⟩
  have hnot := not_of_drop_takeWhile (Option.mem_def.2 h)
  exact absurd rfl (beq_eq_false_iff_ne.1 hnot)

end DigitRun

/-! ## Numerals -/

/-- The value of a magnitude under a sign. -/
def Sign.apply (sign : Sign) (magnitude : Nat) : Int :=
  if sign = .minus then -magnitude else magnitude

theorem Sign.natAbs_apply (sign : Sign) (magnitude : Nat) :
    (sign.apply magnitude).natAbs = magnitude := by
  rw [Sign.apply]
  split
  · exact Int.natAbs_neg _
  · exact Int.natAbs_natCast _

/-- What is read of a literal that has been cut into parts, when its digits denote a magnitude. -/
def ofParts (g : Grammar) (literal : Bytes) (l : Layout) (run : DigitRun) (magnitude : Nat) :
    Numeral :=
  let value : Int := if l.sign = .minus then -magnitude else magnitude
  { literal, value
    sign := l.sign
    style := l.style
    leadingZeros := run.zeros
    separated := run.separated
    errors := l.errors ∪ flagIf (startsWithHex g l) .startsWithHex
      ∪ flagIf run.invalid .invalidDigit
      ∪ flagIf (l.digits = []) .noDigits
      ∪ flagIf (run.separated ∧ ¬g.separators) .invalidSeparator
      ∪ flagIf (¬g.inRange value) .range }

theorem parse?_of_value? {g : Grammar} {literal : Bytes} {l : Layout} {run : DigitRun}
    {magnitude : Nat} (hl : Layout.ofLiteral g literal = l)
    (hrun : DigitRun.read l.style.radix l.digits = run)
    (hvalue : run.value? l.style.radix = some magnitude) :
    parse? g literal = .ok (ofParts g literal l run magnitude) := by
  subst hl hrun
  unfold parse?
  dsimp only
  rw [hvalue]
  rfl

/-- **Every numeral is read**, whatever is wrong with it. -/
theorem exists_parse?_eq (g : Grammar) (literal : Bytes) :
    let l := Layout.ofLiteral g literal
    let run := DigitRun.read l.style.radix l.digits
    ∃ magnitude, run.value? l.style.radix = some magnitude ∧
      parse? g literal = .ok (ofParts g literal l run magnitude) := by
  intro l run
  obtain ⟨magnitude, hmagnitude⟩ := DigitRun.exists_ofDigits? l.style.radix
    (l.digits.drop (l.digits.takeWhile (· == Ascii.zero)).length)
  exact ⟨magnitude, hmagnitude, parse?_of_value? rfl rfl hmagnitude⟩

theorem parse_of_parse? {g : Grammar} {literal : Bytes} {n : Numeral}
    (h : parse? g literal = .ok n) : parse g literal = n := by
  rw [parse, h]

theorem parse?_eq_parse (g : Grammar) (literal : Bytes) :
    parse? g literal = .ok (parse g literal) := by
  obtain ⟨magnitude, -, h⟩ := exists_parse?_eq g literal
  rw [parse_of_parse? h, h]

theorem literal_parse (g : Grammar) (literal : Bytes) : (parse g literal).literal = literal := by
  obtain ⟨magnitude, -, h⟩ := exists_parse?_eq g literal
  rw [parse_of_parse? h]
  rfl

end WhitespaceAsm.Numeral

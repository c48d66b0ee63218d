import Mathlib.Data.Nat.Digits.Defs
import WhitespaceAsm.Proofs.Numeral.Magnitude

/-!
# The number that digits denote

A digit has the value of its place in the alphabet of hexadecimal digits, and digits denote a number
by their places. The digits of a numeral are read without errors and separators when they denote a
number in its radix, and the number is then what they are read as.

* **`Denotes`**: digits and the number that they are written for;
* `Radix.ofDigits?_eq_some_iff`, **`DigitRun.denotes_iff_spells`**: digits that are read.
-/

namespace WhitespaceAsm.Numeral

/-! ## The value of a digit -/

/-- **The value of a digit**, in either case. A byte that is no digit has the value sixteen. -/
def digitValue (b : UInt8) : Nat := (ascii "0123456789abcdef").idxOf (Ascii.toLower b)

theorem Radix.hexadecimal_digit?_eq_ite (b : UInt8) :
    hexadecimal.digit? b = if digitValue b < 16 then some (digitValue b) else none := by
  have hall : ∀ n < 256, hexadecimal.digit? (UInt8.ofNat n)
      = if digitValue (UInt8.ofNat n) < 16 then some (digitValue (UInt8.ofNat n)) else none := by
    decide +kernel
  have hb := hall b.toNat b.toNat_lt
  rwa [UInt8.ofNat_toNat] at hb

theorem Radix.digit?_eq_ite (r : Radix) (b : UInt8) :
    r.digit? b = if digitValue b < r.toNat then some (digitValue b) else none := by
  have hle : r.toNat ≤ 16 := by cases r <;> decide
  -- a digit of the radix is a digit of hexadecimal below the radix
  have hfilter : r.digit? b = (hexadecimal.digit? b).filter (· < r.toNat) := by
    rw [digit?, digit?, Option.filter_filter]
    refine congrArg (Option.filter · _) (funext fun d => ?_)
    rw [← Bool.decide_and, decide_eq_decide]
    exact ⟨fun h => ⟨Nat.lt_of_lt_of_le h hle, h⟩, fun h => h.2⟩
  rw [hfilter, hexadecimal_digit?_eq_ite]
  by_cases h : digitValue b < 16
  · simp [if_pos h, Option.filter]
  · have h' : ¬ digitValue b < r.toNat := fun hlt => h (Nat.lt_of_lt_of_le hlt hle)
    rw [if_neg h, if_neg h', Option.filter_none]

theorem Radix.isSome_digit?_iff (r : Radix) (b : UInt8) :
    (r.digit? b).isSome ↔ digitValue b < r.toNat := by
  rw [r.digit?_eq_ite]
  split <;> simp_all

/-! ## Digits by their places -/

/-- **The digits are a number written in the radix**, the last of them for the units. -/
structure Denotes (r : Radix) (digits : Bytes) (n : Nat) : Prop where
  ne_nil : digits ≠ []
  lt : ∀ b ∈ digits, digitValue b < r.toNat
  value : Nat.ofDigits r.toNat (digits.reverse.map digitValue) = n

/-- **The number that is read** is the one that the digits are written for. -/
theorem Radix.ofDigits?_eq_some_iff {r : Radix} {digits : Bytes} {n : Nat} :
    r.ofDigits? digits = some n ↔ (∀ b ∈ digits, digitValue b < r.toNat) ∧
      Nat.ofDigits r.toNat (digits.reverse.map digitValue) = n := by
  induction digits using List.reverseRecOn generalizing n with
  | nil => simp [ofDigits?, Nat.ofDigits_nil]
  | append_singleton digits b ih =>
    rw [ofDigits?_append, Option.bind_eq_some_iff, List.reverse_concat, List.map_cons,
      Nat.ofDigits_cons, List.forall_mem_append, List.forall_mem_singleton]
    constructor
    · rintro ⟨m, hm, hn⟩
      obtain ⟨hdigits, rfl⟩ := ih.1 hm
      obtain ⟨d, hd, rfl⟩ := Option.map_eq_some_iff.1 hn
      rw [r.digit?_eq_ite] at hd
      split at hd
      · next hlt =>
        rw [← Option.some.inj hd]
        exact ⟨⟨hdigits, hlt⟩, by rw [Nat.add_comm, Nat.mul_comm]⟩
      · cases hd
    · rintro ⟨⟨hdigits, hlt⟩, rfl⟩
      refine ⟨_, ih.2 ⟨hdigits, rfl⟩, ?_⟩
      rw [r.digit?_eq_ite, if_pos hlt, Option.map_some, Nat.add_comm, Nat.mul_comm]

theorem Radix.ofDigits?_zeros (r : Radix) (k : Nat) (s : Bytes) :
    r.ofDigits? (List.replicate k Ascii.zero ++ s) = r.ofDigits? s := by
  induction k with
  | zero => rfl
  | succ k ih =>
    rw [List.replicate_succ, List.cons_append, ← ih, ofDigits?, List.foldlM_cons, digit?_zero]
    rw [Nat.zero_mul]
    rfl

/-! ## Digits of a numeral -/

namespace DigitRun

theorem isSome_digit?_of_not_separated {r : Radix} {s : Bytes} (hread : ∀ b ∈ s, Readable r b)
    (h : (readSignificant r s).separated = false) : ∀ b ∈ s, (r.digit? b).isSome := by
  induction s with
  | nil => simp
  | cons b rest ih =>
    obtain ⟨hb, hrest⟩ := List.forall_mem_cons.1 hread
    rw [readSignificant] at h
    split at h
    · cases h
    · next hsep =>
      have hdigit := hb.resolve_left hsep
      rw [if_pos hdigit] at h
      exact List.forall_mem_cons.2 ⟨hdigit, ih hrest h⟩

/-- **Digits are read without errors and separators** when they denote a number. -/
theorem denotes_iff_spells {r : Radix} {digits : Bytes} {n : Nat} :
    Denotes r digits n ↔ Spells r digits n ∧ (read r digits).separated = false := by
  obtain ⟨hsplit, hs⟩ := eq_zeros_append digits
  generalize (digits.takeWhile (· == Ascii.zero)).length = k at hsplit hs
  generalize digits.drop k = s at hsplit hs
  subst hsplit
  rw [read_zeros r k hs]
  constructor
  · intro h
    have hdigits : ∀ b ∈ List.replicate k Ascii.zero ++ s, (r.digit? b).isSome :=
      fun b hb => (r.isSome_digit?_iff b).2 (h.lt b hb)
    have hread := readSignificant_of_digits fun b hb => hdigits b (List.mem_append_right _ hb)
    refine ⟨⟨h.ne_nil, fun b hb => .inr (hdigits b hb), ?_⟩, by rw [hread]⟩
    rw [read_zeros r k hs, value?, hread, ← r.ofDigits?_zeros k]
    exact Radix.ofDigits?_eq_some_iff.2 ⟨h.lt, h.value⟩
  · rintro ⟨h, hsep⟩
    have hdigits := isSome_digit?_of_not_separated
      (fun b hb => h.readable b (List.mem_append_right _ hb)) hsep
    have hvalue := h.ofDigits? hs
    rw [readSignificant_of_digits hdigits, ← r.ofDigits?_zeros k] at hvalue
    obtain ⟨hlt, hvalue⟩ := Radix.ofDigits?_eq_some_iff.1 hvalue
    exact ⟨h.ne_nil, hlt, hvalue⟩

theorem denotes_iff_of_value? {r : Radix} {digits : Bytes} {magnitude n : Nat}
    (hvalue : (read r digits).value? r = some magnitude) :
    Denotes r digits n ↔ digits ≠ [] ∧ (read r digits).invalid = false ∧
      (read r digits).separated = false ∧ magnitude = n := by
  rw [denotes_iff_spells]
  constructor
  · rintro ⟨h, hsep⟩
    exact ⟨h.ne_nil, h.invalid, hsep, Option.some.inj (hvalue.symm.trans h.value?)⟩
  · rintro ⟨hne, hinvalid, hsep, rfl⟩
    exact ⟨⟨hne, readable_of_read hinvalid, hvalue⟩, hsep⟩

end DigitRun

end WhitespaceAsm.Numeral

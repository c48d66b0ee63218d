import Mathlib.Order.Bounds.Basic
import Mathlib.Tactic.IntervalCases
import WhitespaceAsm.Proofs.Utf8

/-!
# Code points and their encodings

A well-formed unit is the encoding of a Unicode scalar value, and the encoding of a scalar value is
a well-formed unit. A text is therefore well-formed when it is made of such encodings, in one way.

* **`decode_encode`**, **`exists_encode_of_valid`**: one unit; `toNat_of_mem_encode`: its bytes;
  `isValidChar_of_valid`, `length_eq_one_of_valid`: its code point and its length;
* **`isValid_encodings`**: well-formed texts, their code points and the longest well-formed start.
-/

namespace WhitespaceAsm.Utf8

/-! ## Lead bytes -/

namespace Lead

theorem ofByte?_two {k : Nat} (hlow : 2 ≤ k) (hhigh : k < 0x20) :
    ofByte? (UInt8.ofNat (0xC0 + k)) = some { payload := k, trailing := 1 } := by
  interval_cases k <;> rfl

theorem ofByte?_three {k : Nat} (hhigh : k < 0x10) :
    ofByte? (UInt8.ofNat (0xE0 + k)) = some
      { payload := k, trailing := 2, low := if k = 0 then 0xA0 else 0x80
        high := if k = 0xD then 0x9F else 0xBF } := by
  interval_cases k <;> rfl

theorem ofByte?_four {k : Nat} (hhigh : k < 5) :
    ofByte? (UInt8.ofNat (0xF0 ||| k)) = some
      { payload := k, trailing := 3, low := if k = 0 then 0x90 else 0x80
        high := if k = 4 then 0x8F else 0xBF } := by
  interval_cases k <;> rfl

/-- **What a lead byte is.** -/
theorem ofByte?_eq_some {b : UInt8} {lead : Lead} (h : ofByte? b = some lead) :
    (∃ k, 2 ≤ k ∧ k < 0x20 ∧ b = UInt8.ofNat (0xC0 + k)) ∨
    (∃ k, k < 0x10 ∧ b = UInt8.ofNat (0xE0 + k)) ∨
    (∃ k, k < 5 ∧ b = UInt8.ofNat (0xF0 ||| k)) := by
  have hor : ∀ k < 5, 0xF0 ||| k = 0xF0 + k := by decide
  have hb : ∀ n, n ≤ b.toNat → b = UInt8.ofNat (n + (b.toNat - n)) := by
    intro n hn
    rw [Nat.add_sub_cancel' hn, UInt8.ofNat_toNat]
  unfold ofByte? at h
  simp only [UInt8.le_iff_toNat_le, UInt8.reduceToNat] at h
  split at h
  · exact .inl ⟨b.toNat - 0xC0, by omega, by omega, hb 0xC0 (by omega)⟩
  · split at h
    · exact .inr (.inl ⟨b.toNat - 0xE0, by omega, hb 0xE0 (by omega)⟩)
    · split at h
      · refine .inr (.inr ⟨b.toNat - 0xF0, by omega, ?_⟩)
        rw [hor _ (by omega)]
        exact hb 0xF0 (by omega)
      · cases h

theorem le_of_ofByte? {b : UInt8} {lead : Lead} (h : ofByte? b = some lead) : 0x80 ≤ b := by
  unfold ofByte? at h
  simp only [UInt8.le_iff_toNat_le, UInt8.reduceToNat] at h ⊢
  split_ifs at h <;> omega

end Lead

theorem decode_of_ofByte? {b : UInt8} {lead : Lead} (h : Lead.ofByte? b = some lead)
    (rest : Bytes) :
    decode (b :: rest) = follow lead.low lead.high lead.trailing lead.payload 1 rest := by
  rw [decode, if_neg (UInt8.not_lt.2 (Lead.le_of_ofByte? h)), h]

/-! ## The bytes behind a lead byte -/

section Follow

variable {low high : UInt8} {missing codePoint length : Nat}

theorem follow_cons {n : Nat} (hn : n < 0x40) (hlow : low.toNat ≤ 0x80 + n)
    (hhigh : 0x80 + n ≤ high.toNat) (rest : Bytes) :
    follow low high (missing + 1) codePoint length (UInt8.ofNat (0x80 + n) :: rest)
      = follow 0x80 0xBF missing (codePoint * 64 + n) (length + 1) rest := by
  have hb : (UInt8.ofNat (0x80 + n)).toNat = 0x80 + n := by
    rw [UInt8.toNat_ofNat']
    omega
  rw [follow, if_pos (by rw [UInt8.le_iff_toNat_le, UInt8.le_iff_toNat_le, hb]; omega), hb]
  congr 2
  omega

theorem exists_cons_of_follow_valid {s : Bytes} (hbounds : 0x80 ≤ low ∧ high ≤ 0xBF)
    (h : (follow low high (missing + 1) codePoint length s).valid) :
    ∃ n rest, s = UInt8.ofNat (0x80 + n) :: rest ∧ n < 0x40 ∧ low.toNat ≤ 0x80 + n ∧
      0x80 + n ≤ high.toNat ∧
      (follow 0x80 0xBF missing (codePoint * 64 + n) (length + 1) rest).valid := by
  cases s with
  | nil => cases h
  | cons b rest =>
    by_cases hb : low ≤ b ∧ b ≤ high
    · obtain ⟨hlow, hhigh⟩ := hbounds
      have hfollow := h
      rw [follow, if_pos hb] at hfollow
      simp only [UInt8.le_iff_toNat_le, UInt8.reduceToNat] at hb hlow hhigh
      have hbyte : b = UInt8.ofNat (0x80 + (b.toNat - 0x80)) := by
        rw [Nat.add_sub_cancel' (by omega), UInt8.ofNat_toNat]
      have hmod : b.toNat % 64 = b.toNat - 0x80 := by omega
      rw [hmod] at hfollow
      exact ⟨b.toNat - 0x80, rest, by rw [← hbyte], by omega, by omega, by omega, hfollow⟩
    · rw [follow, if_neg hb] at h
      cases h

end Follow

/-! ## One code point -/

/-- **The encoding of a scalar value** is read as that value, whatever follows it. -/
theorem decode_encode {c : Nat} (hc : c.isValidChar) (t : Bytes) :
    decode (encode c ++ t) = ⟨c, (encode c).length, true⟩ := by
  unfold encode
  split_ifs with hone htwo hthree
  · have hb : (UInt8.ofNat c).toNat = c := by
      rw [UInt8.toNat_ofNat']
      omega
    have hlt : UInt8.ofNat c < 0x80 := by
      rw [UInt8.lt_iff_toNat_lt, hb]
      exact hone
    rw [List.singleton_append, decode_of_lt hlt, hb]
    rfl
  · rw [List.cons_append, decode_of_ofByte? (Lead.ofByte?_two (by omega) (by omega)),
      List.cons_append, follow_cons (by omega) (by simp) (by simp; omega)]
    simp only [follow, List.length_cons, List.length_nil, Unit.mk.injEq, and_true]
    omega
  · rw [List.cons_append, decode_of_ofByte? (Lead.ofByte?_three (by omega)), List.cons_append,
      follow_cons (by omega), List.cons_append, follow_cons (by omega) (by simp) (by simp; omega)]
    · simp only [follow, List.length_cons, List.length_nil, Unit.mk.injEq, and_true]
      omega
    · dsimp only
      split_ifs <;> simp only [UInt8.reduceToNat] <;> omega
    · dsimp only
      split_ifs <;> simp only [UInt8.reduceToNat] <;> omega
  · rw [List.cons_append, decode_of_ofByte? (Lead.ofByte?_four (by omega)), List.cons_append,
      follow_cons (by omega), List.cons_append, follow_cons (by omega) (by simp) (by simp; omega),
      List.cons_append, follow_cons (by omega) (by simp) (by simp; omega)]
    · simp only [follow, List.length_cons, List.length_nil, Unit.mk.injEq, and_true]
      omega
    · dsimp only
      split_ifs <;> simp only [UInt8.reduceToNat] <;> omega
    · dsimp only
      split_ifs <;> simp only [UInt8.reduceToNat] <;> omega

theorem encode_of_lt {c : Nat} (h : c < 0x80) : encode c = [UInt8.ofNat c] := if_pos h

theorem le_of_mem_encode {c : Nat} (hc : c.isValidChar) (hle : 0x80 ≤ c) {b : UInt8}
    (hb : b ∈ encode c) : 0x80 ≤ b := by
  have hlead : ∀ n, 0x80 ≤ n → n < 0x100 → 0x80 ≤ UInt8.ofNat n := by
    intro n hn hlt
    rw [UInt8.le_iff_toNat_le, UInt8.toNat_ofNat', Nat.mod_eq_of_lt hlt]
    exact hn
  have hor : ∀ k < 5, 0xF0 ||| k = 0xF0 + k := by decide
  have hlimit : c < 0x110000 := by rw [Nat.isValidChar] at hc; omega
  unfold encode at hb
  split_ifs at hb with hone htwo hthree
  · omega
  all_goals simp only [List.mem_cons, List.not_mem_nil, or_false] at hb
  · obtain rfl | rfl := hb <;> exact hlead _ (by omega) (by omega)
  · obtain rfl | rfl | rfl := hb <;> exact hlead _ (by omega) (by omega)
  · rw [hor _ (by omega)] at hb
    obtain rfl | rfl | rfl | rfl := hb <;> exact hlead _ (by omega) (by omega)

theorem toNat_of_mem_encode {c : Nat} (hc : c.isValidChar) {b : UInt8} (hb : b ∈ encode c)
    (hlt : b < 0x80) : b.toNat = c := by
  by_cases hascii : c < 0x80
  · rw [encode_of_lt hascii, List.mem_singleton] at hb
    rw [hb, UInt8.toNat_ofNat', Nat.mod_eq_of_lt (by omega)]
  · exact absurd (le_of_mem_encode hc (by omega) hb) (UInt8.not_le.2 hlt)

theorem notMem_encode {c : Nat} (hc : c.isValidChar) {b : UInt8} (hb : b < 0x80)
    (hne : c ≠ b.toNat) : b ∉ encode c := fun hmem =>
  hne (toNat_of_mem_encode hc hmem hb).symm

section Valid

variable {s : Bytes} {k : Nat}

theorem exists_encode_two (hlow : 2 ≤ k) (hhigh : k < 0x20)
    (h : (decode (UInt8.ofNat (0xC0 + k) :: s)).valid) :
    ∃ c t, c.isValidChar ∧ UInt8.ofNat (0xC0 + k) :: s = encode c ++ t := by
  have hlead := Lead.ofByte?_two hlow hhigh
  rw [decode_of_ofByte? hlead] at h
  obtain ⟨n, t, rfl, hn, -⟩ := exists_cons_of_follow_valid (bounds_of_ofByte? hlead) h
  refine ⟨k * 64 + n, t, .inl (by omega), ?_⟩
  have hk : (k * 64 + n) / 0x40 = k := by omega
  have hn' : (k * 64 + n) % 0x40 = n := by omega
  rw [encode, if_neg (by omega), if_pos (by omega), hk, hn']
  rfl

theorem exists_encode_three (hhigh : k < 0x10)
    (h : (decode (UInt8.ofNat (0xE0 + k) :: s)).valid) :
    ∃ c t, c.isValidChar ∧ UInt8.ofNat (0xE0 + k) :: s = encode c ++ t := by
  have hlead := Lead.ofByte?_three hhigh
  rw [decode_of_ofByte? hlead] at h
  obtain ⟨n, t, rfl, hn, hfirst, hlast, h⟩ :=
    exists_cons_of_follow_valid (bounds_of_ofByte? hlead) h
  obtain ⟨m, t, rfl, hm, -⟩ := exists_cons_of_follow_valid (by decide) h
  -- the bounds of the first byte leave out the overlong forms and the surrogates
  have hoverlong : k = 0 → 0x20 ≤ n := by
    rintro rfl
    simp only [if_true, UInt8.reduceToNat] at hfirst
    omega
  have hsurrogate : k = 0xD → n < 0x20 := by
    rintro rfl
    simp only [if_true, UInt8.reduceToNat] at hlast
    omega
  refine ⟨(k * 64 + n) * 64 + m, t, by rw [Nat.isValidChar]; omega, ?_⟩
  have hk : ((k * 64 + n) * 64 + m) / 0x1000 = k := by omega
  have hn' : ((k * 64 + n) * 64 + m) / 0x40 % 0x40 = n := by omega
  have hm' : ((k * 64 + n) * 64 + m) % 0x40 = m := by omega
  rw [encode, if_neg (by omega), if_neg (by omega), if_pos (by omega), hk, hn', hm']
  rfl

theorem exists_encode_four (hhigh : k < 5)
    (h : (decode (UInt8.ofNat (0xF0 ||| k) :: s)).valid) :
    ∃ c t, c.isValidChar ∧ UInt8.ofNat (0xF0 ||| k) :: s = encode c ++ t := by
  have hlead := Lead.ofByte?_four hhigh
  rw [decode_of_ofByte? hlead] at h
  obtain ⟨n, t, rfl, hn, hfirst, hlast, h⟩ :=
    exists_cons_of_follow_valid (bounds_of_ofByte? hlead) h
  obtain ⟨m, t, rfl, hm, -, -, h⟩ := exists_cons_of_follow_valid (by decide) h
  obtain ⟨l, t, rfl, hl, -⟩ := exists_cons_of_follow_valid (by decide) h
  -- here they leave out the overlong forms and what lies above U+10FFFF
  have hoverlong : k = 0 → 0x10 ≤ n := by
    rintro rfl
    simp only [if_true, UInt8.reduceToNat] at hfirst
    omega
  have hlimit : k = 4 → n < 0x10 := by
    rintro rfl
    simp only [if_true, UInt8.reduceToNat] at hlast
    omega
  refine ⟨((k * 64 + n) * 64 + m) * 64 + l, t, by rw [Nat.isValidChar]; omega, ?_⟩
  have hk : (((k * 64 + n) * 64 + m) * 64 + l) / 0x40000 = k := by omega
  have hn' : (((k * 64 + n) * 64 + m) * 64 + l) / 0x1000 % 0x40 = n := by omega
  have hm' : (((k * 64 + n) * 64 + m) * 64 + l) / 0x40 % 0x40 = m := by omega
  have hl' : (((k * 64 + n) * 64 + m) * 64 + l) % 0x40 = l := by omega
  rw [encode, if_neg (by omega), if_neg (by omega), if_neg (by omega), hk, hn', hm', hl']
  rfl

/-- **A well-formed unit** is the encoding of a scalar value. -/
theorem exists_encode_of_valid (h : (decode s).valid) :
    ∃ c t, c.isValidChar ∧ s = encode c ++ t := by
  cases s with
  | nil => cases h
  | cons b rest =>
    by_cases hb : b < 0x80
    · rw [UInt8.lt_iff_toNat_lt] at hb
      simp only [UInt8.reduceToNat] at hb
      refine ⟨b.toNat, rest, .inl (by omega), ?_⟩
      rw [encode, if_pos hb, UInt8.ofNat_toNat]
      rfl
    · cases hlead : Lead.ofByte? b with
      | none =>
        rw [decode, if_neg hb, hlead] at h
        cases h
      | some lead =>
        obtain ⟨k, hlow, hhigh, rfl⟩ | ⟨k, hhigh, rfl⟩ | ⟨k, hhigh, rfl⟩ :=
          Lead.ofByte?_eq_some hlead
        · exact exists_encode_two hlow hhigh h
        · exact exists_encode_three hhigh h
        · exact exists_encode_four hhigh h

theorem isValidChar_of_valid (h : (decode s).valid) : (decode s).codePoint.isValidChar := by
  obtain ⟨c, t, hc, rfl⟩ := exists_encode_of_valid h
  rw [decode_encode hc]
  exact hc

theorem length_eq_one_of_valid (h : (decode s).valid) (hlt : (decode s).codePoint < 0x80) :
    (decode s).length = 1 := by
  obtain ⟨c, t, hc, rfl⟩ := exists_encode_of_valid h
  rw [decode_encode hc] at hlt ⊢
  simp only [encode_of_lt hlt, List.length_singleton]

end Valid

/-! ## Texts -/

theorem encode_ne_nil (c : Nat) : encode c ≠ [] := by
  unfold encode
  split_ifs <;> exact List.cons_ne_nil _ _

theorem two_le_length_encode {c : Nat} (hc : 0x80 ≤ c) : 2 ≤ (encode c).length := by
  rw [encode, if_neg (Nat.not_lt.2 hc)]
  split_ifs <;> simp

theorem eq_of_encode_append_eq {c d : Nat} (hc : c.isValidChar) (hd : d.isValidChar) {t : Bytes}
    (h : encode c ++ t = encode d) : c = d ∧ t = [] := by
  have hdecode := decode_encode hd []
  rw [List.append_nil, ← h, decode_encode hc] at hdecode
  obtain rfl : c = d := congrArg Unit.codePoint hdecode
  exact ⟨rfl, List.append_right_eq_self.1 h⟩

/-- A function that goes from unit to unit takes an encoding in one step. -/
theorem exists_cons_encode {c : Nat} (hc : c.isValidChar) (t : Bytes) :
    ∃ b rest, encode c ++ t = b :: rest ∧
      decode (b :: rest) = ⟨c, (encode c).length, true⟩ ∧
      rest.drop ((encode c).length - 1) = t := by
  obtain ⟨b, rest, hcons⟩ := List.exists_cons_of_ne_nil (encode_ne_nil c)
  refine ⟨b, rest ++ t, by rw [hcons, List.cons_append], ?_, ?_⟩
  · rw [← List.cons_append, ← hcons]
    exact decode_encode hc t
  · rw [hcons, List.length_cons, Nat.add_sub_cancel, List.drop_left]

theorem units_encode {c : Nat} (hc : c.isValidChar) (t : Bytes) :
    units (encode c ++ t) = ⟨c, (encode c).length, true⟩ :: units t := by
  obtain ⟨b, rest, hcons, hdecode, hdrop⟩ := exists_cons_encode hc t
  rw [hcons, units]
  simp only [hdecode, hdrop]

theorem validLength_encode {c : Nat} (hc : c.isValidChar) (t : Bytes) :
    validLength (encode c ++ t) = (encode c).length + validLength t := by
  obtain ⟨b, rest, hcons, hdecode, hdrop⟩ := exists_cons_encode hc t
  rw [hcons, validLength]
  simp only [hdecode, if_true, hdrop]

theorem isValid_encode {c : Nat} (hc : c.isValidChar) : isValid (encode c) := by
  have h := validLength_encode hc []
  rwa [List.append_nil, validLength, Nat.add_zero, ← beq_iff_eq] at h

/-- **Induction along the well-formed start of a text**: it is empty, or the text begins with the
encoding of a scalar value. -/
theorem validInduction {motive : Bytes → Prop} (nil : motive [])
    (encoding : ∀ c t, c.isValidChar → motive t → motive (encode c ++ t))
    (illFormed : ∀ b rest, (decode (b :: rest)).valid = false → motive (b :: rest)) (s : Bytes) :
    motive s := by
  induction hn : s.length using Nat.strongRecOn generalizing s with
  | ind n ih =>
    cases s with
    | nil => exact nil
    | cons b rest =>
      by_cases h : (decode (b :: rest)).valid
      · obtain ⟨c, t, hc, hs⟩ := exists_encode_of_valid h
        rw [hs]
        refine encoding c t hc (ih t.length ?_ t rfl)
        have hpos := List.length_pos_iff.2 (encode_ne_nil c)
        rw [← hn, hs, List.length_append]
        omega
      · exact illFormed b rest (Bool.eq_false_iff.2 h)

theorem exists_encode_of_isValid {s : Bytes} (hs : isValid s) (hne : s ≠ []) :
    ∃ c t, c.isValidChar ∧ isValid t ∧ s = encode c ++ t := by
  induction s using validInduction with
  | nil => exact absurd rfl hne
  | encoding c t hc _ =>
    rw [isValid, beq_iff_eq, validLength_encode hc, List.length_append] at hs
    refine ⟨c, t, hc, ?_, rfl⟩
    rw [isValid, beq_iff_eq]
    omega
  | illFormed b rest hill =>
    rw [isValid_cons, hill] at hs
    cases hs

theorem units_flatMap_encode {cs : List Nat} (h : ∀ c ∈ cs, c.isValidChar) :
    (∀ u ∈ units (cs.flatMap encode), u.valid) ∧
      (units (cs.flatMap encode)).map Unit.codePoint = cs := by
  induction cs with
  | nil => simp [units]
  | cons c cs ih =>
    obtain ⟨hc, hcs⟩ := List.forall_mem_cons.1 h
    obtain ⟨hvalid, hcodes⟩ := ih hcs
    rw [List.flatMap_cons, units_encode hc]
    exact ⟨List.forall_mem_cons.2 ⟨rfl, hvalid⟩, congrArg (List.cons c) hcodes⟩

theorem flatMap_encode_units {s : Bytes} (h : ∀ u ∈ units s, u.valid) :
    (∀ c ∈ (units s).map Unit.codePoint, c.isValidChar) ∧
      ((units s).map Unit.codePoint).flatMap encode = s := by
  induction s using validInduction with
  | nil => simp [units]
  | encoding c t hc ih =>
    rw [units_encode hc] at h ⊢
    obtain ⟨hvalid, ht⟩ := ih (List.forall_mem_cons.1 h).2
    exact ⟨List.forall_mem_cons.2 ⟨hc, hvalid⟩, congrArg (encode c ++ ·) ht⟩
  | illFormed b rest hill =>
    have hvalid := h (decode (b :: rest)) (by rw [units]; exact List.mem_cons_self)
    rw [hill] at hvalid
    cases hvalid

theorem isValid_iff_units (s : Bytes) : isValid s ↔ ∀ u ∈ units s, u.valid := by
  rw [isValid, beq_iff_eq]
  induction s using validInduction with
  | nil => simp [units, validLength]
  | encoding c t hc ih =>
    rw [validLength_encode hc, units_encode hc, List.length_append, Nat.add_left_cancel_iff, ih,
      List.forall_mem_cons]
    exact (and_iff_right rfl).symm
  | illFormed b rest hill =>
    rw [validLength, units]
    simp [hill]

theorem isValid_take_validLength (s : Bytes) : isValid (s.take (validLength s)) := by
  induction s using validInduction with
  | nil => simp [isValid, validLength]
  | encoding c t hc ih =>
    rw [isValid, beq_iff_eq] at ih ⊢
    rw [validLength_encode hc, List.take_length_add_append, validLength_encode hc, ih,
      List.length_append]
  | illFormed b rest hill =>
    have hzero : validLength (b :: rest) = 0 := by
      rw [validLength]
      simp [hill]
    rw [hzero, List.take_zero]
    exact isValid_nil

/-- **Well-formed texts are the encodings of scalar values**, of one list of them each, and any text
has a longest well-formed start. -/
theorem isValid_encodings (s : Bytes) :
    (isValid s ↔ ∃ cs : List Nat, (∀ c ∈ cs, c.isValidChar) ∧ cs.flatMap encode = s) ∧
    (∀ cs : List Nat, ((∀ c ∈ cs, c.isValidChar) ∧ cs.flatMap encode = s) ↔
      (∀ u ∈ units s, u.valid) ∧ (units s).map Unit.codePoint = cs) ∧
    IsGreatest {k | k ≤ s.length ∧ isValid (s.take k)} (validLength s) := by
  have hiff : ∀ cs : List Nat, ((∀ c ∈ cs, c.isValidChar) ∧ cs.flatMap encode = s) ↔
      (∀ u ∈ units s, u.valid) ∧ (units s).map Unit.codePoint = cs := by
    intro cs
    constructor
    · rintro ⟨hcs, rfl⟩
      exact units_flatMap_encode hcs
    · rintro ⟨hvalid, rfl⟩
      exact flatMap_encode_units hvalid
  refine ⟨?_, hiff, ⟨validLength_le s, isValid_take_validLength s⟩, ?_⟩
  · rw [isValid_iff_units]
    exact ⟨fun h => ⟨_, (hiff _).2 ⟨h, rfl⟩⟩, fun ⟨cs, hcs⟩ => ((hiff cs).1 hcs).1⟩
  · rintro k ⟨hle, hk⟩
    have hlength := validLength_append hk (s.drop k)
    rw [List.take_append_drop, List.length_take_of_le hle] at hlength
    omega

end WhitespaceAsm.Utf8

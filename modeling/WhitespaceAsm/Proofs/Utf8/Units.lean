import WhitespaceAsm.Proofs.Utf8.Trim

/-!
# The units of a text

A text is cut into units from its start. An ill-formed unit goes as far as the text reads like the
start of an encoding, and is a single byte where it does not even begin like one. Looking for the
last unit from the end of the text, over at most three bytes that continue something, finds the same
unit as long as it is well-formed.

* **`Unfinished`**: bytes that an encoding begins with; `exists_follow_valid`: every start can be
  completed; `follow_illFormed`: how far an ill-formed unit goes behind its lead byte;
* `Unit.Maximal`, **`maximal_of_illFormed`**: an ill-formed unit is a maximal subpart;
* **`decodeLast_units`**: the last unit of a text and the length of its ill-formed units.
-/

namespace WhitespaceAsm.Utf8

/-! ## Ill-formed units -/

/-- **The bytes begin the encoding of a scalar value**, of which some bytes are missing. -/
def Unfinished (s : Bytes) : Prop :=
  s ≠ [] ∧ ∃ c t, c.isValidChar ∧ t ≠ [] ∧ encode c = s ++ t

/-- **The unit is as long as the longest unfinished encoding** at the start of a text, and a single
byte when there is none. -/
def Unit.Maximal (u : Unit) (s : Bytes) : Prop :=
  IsGreatest {k | k ≤ s.length ∧ Unfinished (s.take k)} u.length ∨
    u.length = 1 ∧ ∀ k ≤ s.length, ¬ Unfinished (s.take k)

section Follow

variable {low high : UInt8} {missing codePoint length : Nat} {s : Bytes}

theorem follow_length_of_valid (h : (follow low high missing codePoint length s).valid) :
    (follow low high missing codePoint length s).length = length + missing := by
  induction missing generalizing low high codePoint length s with
  | zero => rfl
  | succ missing ih =>
    cases s with
    | nil => cases h
    | cons b rest =>
      rw [follow] at h ⊢
      split at h
      · next hb =>
        rw [if_pos hb, ih h]
        omega
      · cases h

/-- The lowest byte of each range completes what has been read so far. -/
theorem exists_follow_valid (hrange : low ≤ high) (missing codePoint length : Nat) :
    ∃ t, t.length = missing ∧ (follow low high missing codePoint length t).valid := by
  induction missing generalizing low high codePoint length with
  | zero => exact ⟨[], rfl, rfl⟩
  | succ missing ih =>
    obtain ⟨t, hlength, ht⟩ := ih (show (0x80 : UInt8) ≤ 0xBF by decide)
      (codePoint * 64 + low.toNat % 64) (length + 1)
    refine ⟨low :: t, congrArg (· + 1) hlength, ?_⟩
    rw [follow, if_pos ⟨UInt8.le_refl low, hrange⟩]
    exact ht

/-- **How far an ill-formed unit goes** behind its lead byte: over the bytes that could be completed
to a well-formed unit, and no further. -/
theorem follow_illFormed (hrange : low ≤ high)
    (h : (follow low high missing codePoint length s).valid = false) :
    ∃ n ≤ s.length, (follow low high missing codePoint length s).length = length + n ∧
      (∃ t, t ≠ [] ∧ (s.take n ++ t).length = missing ∧
        (follow low high missing codePoint length (s.take n ++ t)).valid) ∧
      ∀ k, n < k → k ≤ s.length →
        ∀ t, (follow low high missing codePoint length (s.take k ++ t)).valid = false := by
  induction missing generalizing low high codePoint length s with
  | zero => cases h
  | succ missing ih =>
    obtain ⟨t, hlength, ht⟩ := exists_follow_valid hrange (missing + 1) codePoint length
    have hne : t ≠ [] := List.length_pos_iff.1 (by omega)
    cases s with
    | nil =>
      exact ⟨0, Nat.le_refl 0, rfl, ⟨t, hne, hlength, ht⟩,
        fun k hk hle => absurd hle (Nat.not_le.2 hk)⟩
    | cons b rest =>
      by_cases hb : low ≤ b ∧ b ≤ high
      · rw [follow, if_pos hb] at h ⊢
        obtain ⟨n, hn, hreach, ⟨u, hu, htotal, hvalid⟩, hno⟩ := ih (by decide) h
        refine ⟨n + 1, Nat.succ_le_succ hn, by omega, ⟨u, hu, ?_, ?_⟩, fun k hk hle u => ?_⟩
        · rw [List.take_succ_cons, List.cons_append, List.length_cons, htotal]
        · rw [List.take_succ_cons, List.cons_append, follow, if_pos hb]
          exact hvalid
        · obtain ⟨k, rfl⟩ := Nat.exists_eq_add_of_lt hk
          rw [List.take_succ_cons, List.cons_append, follow, if_pos hb]
          exact hno _ (by omega) (by simpa using hle) u
      · rw [follow, if_neg hb]
        refine ⟨0, Nat.zero_le _, rfl, ⟨t, hne, hlength, ht⟩, fun k hk hle u => ?_⟩
        obtain ⟨k, rfl⟩ := Nat.exists_eq_add_of_lt hk
        rw [List.take_succ_cons, List.cons_append, follow, if_neg hb]
        rfl

end Follow

theorem Lead.low_le_high {b : UInt8} {lead : Lead} (h : ofByte? b = some lead) :
    lead.low ≤ lead.high := by
  obtain ⟨k, hlow, hhigh, rfl⟩ | ⟨k, hhigh, rfl⟩ | ⟨k, hhigh, rfl⟩ := ofByte?_eq_some h
  · rw [ofByte?_two hlow hhigh] at h
    obtain rfl := Option.some.inj h
    exact (by decide : (0x80 : UInt8) ≤ 0xBF)
  · rw [ofByte?_three hhigh] at h
    obtain rfl := Option.some.inj h
    dsimp only
    split_ifs <;> first | decide | omega
  · rw [ofByte?_four hhigh] at h
    obtain rfl := Option.some.inj h
    dsimp only
    split_ifs <;> first | decide | omega

theorem follow_of_encode {b : UInt8} {lead : Lead} (hlead : Lead.ofByte? b = some lead) {c : Nat}
    {s : Bytes} (hc : c.isValidChar) (h : encode c = b :: s) :
    (follow lead.low lead.high lead.trailing lead.payload 1 s).valid := by
  have hdecode := decode_encode hc []
  rw [List.append_nil, h, decode_of_ofByte? hlead] at hdecode
  rw [hdecode]

theorem encode_of_follow {b : UInt8} {lead : Lead} (hlead : Lead.ofByte? b = some lead) {s : Bytes}
    (hlength : s.length = lead.trailing)
    (h : (follow lead.low lead.high lead.trailing lead.payload 1 s).valid) :
    ∃ c, c.isValidChar ∧ encode c = b :: s := by
  have hunit := follow_length_of_valid h
  rw [← decode_of_ofByte? hlead] at h hunit
  obtain ⟨c, t, hc, hsplit⟩ := exists_encode_of_valid h
  -- the unit is as long as the bytes, so that nothing follows the encoding
  have htotal := congrArg List.length hsplit
  rw [hsplit, decode_encode hc] at hunit
  dsimp only at hunit
  rw [List.length_append, List.length_cons] at htotal
  obtain rfl : t = [] := List.eq_nil_of_length_eq_zero (by omega)
  exact ⟨c, hc, by rw [hsplit, List.append_nil]⟩

/-- **An ill-formed unit is a maximal subpart** of what is left of the text. -/
theorem maximal_of_illFormed {b : UInt8} {rest : Bytes}
    (h : (decode (b :: rest)).valid = false) : (decode (b :: rest)).Maximal (b :: rest) := by
  have hb : ¬ b < 0x80 := by
    intro hb
    rw [decode_of_lt hb] at h
    cases h
  cases hlead : Lead.ofByte? b with
  | none =>
    refine .inr ⟨by rw [decode, if_neg hb, hlead]; rfl, ?_⟩
    rintro k - ⟨hne, c, t, hc, -, hencode⟩
    obtain ⟨k, rfl⟩ := Nat.exists_eq_succ_of_ne_zero fun hk : k = 0 => hne (by rw [hk]; rfl)
    have hdecode := decode_encode hc []
    rw [List.append_nil, hencode, Nat.succ_eq_add_one, List.take_succ_cons, List.cons_append,
      decode, if_neg hb, hlead] at hdecode
    exact Bool.false_ne_true (congrArg Unit.valid hdecode)
  | some lead =>
    rw [decode_of_ofByte? hlead] at h ⊢
    obtain ⟨n, hn, hreach, ⟨u, hu, htotal, hvalid⟩, hno⟩ :=
      follow_illFormed (Lead.low_le_high hlead) h
    refine .inl ⟨⟨by rw [hreach, List.length_cons]; omega, ?_⟩, ?_⟩
    · obtain ⟨c, hc, hencode⟩ := encode_of_follow hlead htotal hvalid
      rw [hreach, Nat.add_comm, List.take_succ_cons]
      exact ⟨List.cons_ne_nil _ _, c, u, hc, hu, hencode⟩
    · rintro k ⟨hle, hne, c, t, hc, -, hencode⟩
      rw [hreach]
      by_contra hlong
      obtain ⟨k, rfl⟩ := Nat.exists_eq_add_of_lt (Nat.not_le.1 hlong)
      rw [List.take_succ_cons, List.cons_append] at hencode
      have hvalid := follow_of_encode hlead hc hencode
      rw [hno _ (by omega) (by simpa using hle)] at hvalid
      cases hvalid

/-! ## Units in their places -/

theorem units_cons (b : UInt8) (rest : Bytes) : units (b :: rest)
    = decode (b :: rest) :: units ((b :: rest).drop (decode (b :: rest)).length) := by
  obtain ⟨n, hn⟩ := Nat.exists_eq_add_of_le' (decode_length_pos b rest)
  rw [units, hn, List.drop_succ_cons, Nat.add_sub_cancel]

theorem units_eq_nil_iff (s : Bytes) : units s = [] ↔ s = [] := by
  cases s with
  | nil => simp [units]
  | cons b rest => simp [units_cons]

/-- **More text behind a text** leaves its units as they are, unless it goes on with a byte that
continues one. -/
theorem units_append_cons {c : UInt8} (hc : isContinuation c = false) (s t : Bytes) :
    units (s ++ c :: t) = units s ++ units (c :: t) := by
  induction s using units.induct with
  | case1 => simp [units]
  | case2 b rest u ih =>
    simp only [u] at ih
    have hle := decode_length_le b rest
    rw [List.cons_append, units, units, decode_append_of_not_isContinuation hc,
      List.drop_append_of_le_length (by omega), ih, List.cons_append]

theorem units_append_encode {c : Nat} (hc : c.isValidChar) (s : Bytes) :
    units (s ++ encode c) = units s ++ [⟨c, (encode c).length, true⟩] := by
  obtain ⟨b, rest, hcons, -⟩ := exists_encode_eq_cons c
  have hunits := units_encode hc []
  rw [List.append_nil, units] at hunits
  have hb : isContinuation b = false := by
    have hdecode := decode_encode hc []
    rw [List.append_nil, hcons] at hdecode
    exact isContinuation_of_valid (by rw [hdecode])
  rw [hcons] at hunits ⊢
  rw [units_append_cons hb, hunits]

/-- **Where a unit stands**: at the start of what the units before it leave of the text. -/
theorem rest_of_units {s : Bytes} {before : List Unit} {u : Unit} {after : List Unit}
    (h : units s = before ++ u :: after) :
    let rest := s.drop (before.map Unit.length).sum
    rest ≠ [] ∧ u = decode rest ∧ after = units (rest.drop u.length) := by
  induction before generalizing s with
  | nil =>
    cases s with
    | nil => simp [units] at h
    | cons b rest =>
      rw [units_cons, List.nil_append] at h
      obtain ⟨rfl, rfl⟩ := List.cons.inj h
      exact ⟨List.cons_ne_nil b rest, rfl, rfl⟩
  | cons v before ih =>
    cases s with
    | nil => simp [units] at h
    | cons b rest =>
      rw [units_cons, List.cons_append] at h
      obtain ⟨rfl, hunits⟩ := List.cons.inj h
      rw [List.map_cons, List.sum_cons, ← List.drop_drop]
      exact ih hunits

/-! ## The last unit -/

theorem decodeLast_of_units {s : Bytes} {before : List Unit} {last : Unit}
    (h : units s = before ++ [last]) (hvalid : last.valid) : decodeLast s = last := by
  obtain ⟨-, hlast, hend⟩ := rest_of_units h
  rw [hlast] at hvalid
  obtain ⟨c, t, hc, hrest⟩ := exists_encode_of_valid hvalid
  rw [hrest, decode_encode hc] at hlast
  rw [hrest, hlast, List.drop_left] at hend
  obtain rfl := (units_eq_nil_iff t).1 hend.symm
  rw [List.append_nil] at hrest
  rw [← List.take_append_drop (before.map Unit.length).sum s, hrest, decodeLast_append_encode hc,
    hlast]

/-- **The last unit of a text, found from its end**, is the last one from its start if that is
well-formed, and otherwise a single byte. Ill-formed units are maximal subparts. -/
theorem decodeLast_units {s : Bytes} (hs : s ≠ []) :
    (∃ before last, units s = before ++ [last] ∧
      decodeLast s = if last.valid then last else .illFormed 1) ∧
    ∀ before u after, units s = before ++ u :: after →
      let rest := s.drop (before.map Unit.length).sum
      u = decode rest ∧ after = units (rest.drop u.length) ∧
        (u.valid = false → u.Maximal rest) := by
  constructor
  · obtain hnil | ⟨before, last, hunits⟩ := List.eq_nil_or_concat (units s)
    · exact absurd ((units_eq_nil_iff s).1 hnil) hs
    · rw [List.concat_eq_append] at hunits
      refine ⟨before, last, hunits, ?_⟩
      split
      · next hvalid => exact decodeLast_of_units hunits hvalid
      · next hill =>
        have hnot : ¬ (decodeLast s).valid := by
          -- a code point that ends the text would be its last unit
          intro hvalid
          obtain ⟨t, hc, hsplit⟩ := exists_append_encode hvalid
          have hends := units_append_encode hc t
          rw [← hsplit, hunits] at hends
          obtain ⟨-, hlast⟩ := List.append_inj' hends rfl
          exact hill (by rw [(List.cons.inj hlast).1])
        rw [decodeLast_of_ne_nil hs] at hnot ⊢
        split
        · next hwhole =>
          rw [if_pos hwhole] at hnot
          exact absurd (Bool.and_eq_true _ _ ▸ hwhole).1 hnot
        · rfl
  · intro before u after h rest
    obtain ⟨hne, (hu : u = decode rest), hafter⟩ := rest_of_units h
    obtain ⟨b, more, hrest⟩ := List.exists_cons_of_ne_nil hne
    refine ⟨hu, hafter, fun hill => ?_⟩
    rw [hu, show rest = b :: more from hrest] at hill ⊢
    exact maximal_of_illFormed hill

/-- A text that ends in three bytes of a four-byte encoding: they are one unit from the start of the
text, and a single byte from its end. -/
theorem decodeLast_units_unfinished :
    let s : Bytes := [0x41, 0xE2, 0x84, 0xAA, 0xF0, 0x9F, 0x98]
    s ≠ [] ∧ units s = [⟨0x41, 1, true⟩, ⟨0x212A, 3, true⟩] ++ [.illFormed 3] ∧
      decodeLast s = .illFormed 1 ∧ (Unit.illFormed 3).Maximal [0xF0, 0x9F, 0x98] := by
  intro s
  have hne : s ≠ [] := List.cons_ne_nil _ _
  have hunits : units s = [⟨0x41, 1, true⟩, ⟨0x212A, 3, true⟩] ++ [.illFormed 3] := by
    decide +kernel
  obtain ⟨⟨before, last, hend, hlast⟩, hplaces⟩ := decodeLast_units hne
  obtain ⟨-, hlast'⟩ := List.append_inj' (hend.symm.trans hunits) rfl
  obtain rfl : last = .illFormed 3 := (List.cons.inj hlast').1
  obtain ⟨-, -, hmaximal⟩ := hplaces _ _ _ hunits
  exact ⟨hne, hunits, hlast, hmaximal rfl⟩

end WhitespaceAsm.Utf8

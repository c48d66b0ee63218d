import Mathlib.Data.List.TakeWhile
import WhitespaceAsm.Proofs.Bytes
import WhitespaceAsm.Utf8

/-!
# Units of UTF-8 at the start and at the end of a text

A unit is at least one byte long and never reaches across the end of the text or a line feed. What
follows a well-formed unit does not matter for it, and neither does what follows a line.

* **`validLength_append`**: the well-formed start of a text that begins with a well-formed one;
  `isValid_cons`: well-formed texts, unit by unit; `isValid_of_lt_validLength`: a well-formed text
  in front of a unit;
* `decodeLast_append_cons`, **`trimEnd_append_cons`**: the end of a text behind an ASCII byte.
-/

namespace WhitespaceAsm.Utf8

/-! ## The length of a unit -/

theorem follow_length_bounds (low high : UInt8) (missing codePoint length : Nat) (s : Bytes) :
    length ≤ (follow low high missing codePoint length s).length ∧
      (follow low high missing codePoint length s).length ≤ length + s.length := by
  induction missing generalizing low high codePoint length s with
  | zero => simp [follow]
  | succ missing ih =>
    cases s with
    | nil => simp [follow, Unit.illFormed]
    | cons b rest =>
      rw [follow]
      split
      · have := ih 0x80 0xBF (codePoint * 64 + b.toNat % 64) (length + 1) rest
        rw [List.length_cons]
        omega
      · simp [Unit.illFormed]

theorem decode_length_bounds (b : UInt8) (rest : Bytes) :
    1 ≤ (decode (b :: rest)).length ∧ (decode (b :: rest)).length ≤ rest.length + 1 := by
  rw [decode]
  split
  · simp
  · split
    · simp [Unit.illFormed]
    · next lead _ =>
      have := follow_length_bounds lead.low lead.high lead.trailing lead.payload 1 rest
      omega

theorem decode_length_pos (b : UInt8) (rest : Bytes) : 1 ≤ (decode (b :: rest)).length :=
  (decode_length_bounds b rest).1

theorem decode_length_le (b : UInt8) (rest : Bytes) :
    (decode (b :: rest)).length ≤ rest.length + 1 :=
  (decode_length_bounds b rest).2

theorem take_append_drop_unit (b : UInt8) (rest : Bytes) :
    (b :: rest).take (decode (b :: rest)).length ++ rest.drop ((decode (b :: rest)).length - 1)
      = b :: rest := by
  obtain ⟨n, hn⟩ := Nat.exists_eq_add_of_le' (decode_length_pos b rest)
  rw [hn, List.take_succ_cons, Nat.add_sub_cancel, List.cons_append, List.take_append_drop]

/-! ## What follows a text -/

theorem follow_append {low high : UInt8} {missing codePoint length : Nat} {s : Bytes}
    (h : (follow low high missing codePoint length s).valid) (t : Bytes) :
    follow low high missing codePoint length (s ++ t)
      = follow low high missing codePoint length s := by
  induction missing generalizing low high codePoint length s with
  | zero => simp [follow]
  | succ missing ih =>
    cases s with
    | nil => simp [follow, Unit.illFormed] at h
    | cons b rest =>
      rw [List.cons_append, follow, follow]
      rw [follow] at h
      split
      · next hb => rw [if_pos hb] at h; exact ih h
      · rfl

theorem decode_append {s : Bytes} (h : (decode s).valid) (t : Bytes) :
    decode (s ++ t) = decode s := by
  cases s with
  | nil => simp [decode, Unit.illFormed] at h
  | cons b rest =>
    rw [List.cons_append, decode, decode]
    rw [decode] at h
    split
    · rfl
    · next hb =>
      rw [if_neg hb] at h
      split
      · rfl
      · next heq => rw [heq] at h; exact follow_append h t

section Break

variable {c : UInt8} (hc : isContinuation c = false)

include hc

theorem follow_append_of_not_isContinuation {low high : UInt8} (hlow : 0x80 ≤ low)
    (hhigh : high ≤ 0xBF) (missing codePoint length : Nat) (s t : Bytes) :
    follow low high missing codePoint length (s ++ c :: t)
      = follow low high missing codePoint length s := by
  induction missing generalizing low high codePoint length s with
  | zero => simp [follow]
  | succ missing ih =>
    cases s with
    | nil =>
      have hout : ¬ (low ≤ c ∧ c ≤ high) := by
        rintro ⟨h, h'⟩
        have hin : isContinuation c = true := by
          simp [isContinuation, UInt8.le_trans hlow h, UInt8.le_trans h' hhigh]
        rw [hc] at hin
        cases hin
      rw [List.nil_append, follow, follow, if_neg hout]
    | cons b rest =>
      rw [List.cons_append, follow, follow, ih (by decide) (by decide)]

end Break

theorem bounds_of_ofByte? {b : UInt8} {lead : Lead} (h : Lead.ofByte? b = some lead) :
    0x80 ≤ lead.low ∧ lead.high ≤ 0xBF := by
  rw [Lead.ofByte?] at h
  split at h
  · rw [← Option.some.inj h]
    exact ⟨UInt8.le_refl _, UInt8.le_refl _⟩
  · split at h
    · rw [← Option.some.inj h]
      dsimp only
      constructor <;> split <;> decide
    · split at h
      · rw [← Option.some.inj h]
        dsimp only
        constructor <;> split <;> decide
      · exact absurd h (by simp)

/-- **A byte that continues nothing** ends a unit in the same way as the end of the text. -/
theorem decode_append_of_not_isContinuation {c : UInt8} (hc : isContinuation c = false) (b : UInt8)
    (rest t : Bytes) : decode (b :: (rest ++ c :: t)) = decode (b :: rest) := by
  rw [decode, decode]
  split
  · rfl
  · split
    · rfl
    · next heq =>
      obtain ⟨hlow, hhigh⟩ := bounds_of_ofByte? heq
      exact follow_append_of_not_isContinuation hc hlow hhigh _ _ _ _ _

@[simp]
theorem decode_lf (t : Bytes) : decode (Ascii.lf :: t) = ⟨0x0A, 1, true⟩ := by
  rw [decode, if_pos (by decide)]
  rfl

theorem decode_append_lf (b : UInt8) (rest t : Bytes) :
    decode (b :: (rest ++ Ascii.lf :: t)) = decode (b :: rest) :=
  decode_append_of_not_isContinuation (by decide) b rest t

theorem decode_of_lt {b : UInt8} (h : b < 0x80) (rest : Bytes) :
    decode (b :: rest) = ⟨b.toNat, 1, true⟩ := by
  rw [decode, if_pos h]

theorem isContinuation_of_lt {b : UInt8} (h : b < 0x80) : isContinuation b = false := by
  simp [isContinuation, UInt8.not_le.2 h]

theorem isContinuation_of_valid {b : UInt8} {rest : Bytes} (h : (decode (b :: rest)).valid) :
    isContinuation b = false := by
  refine Bool.eq_false_iff.2 fun hb => ?_
  rw [isContinuation, Bool.and_eq_true, decide_eq_true_eq, decide_eq_true_eq] at hb
  have hlead : Lead.ofByte? b = none := by
    have hlt : b < 0xC2 := UInt8.lt_of_le_of_lt hb.2 (by decide)
    have hlt' : b < 0xE0 := UInt8.lt_trans hlt (by decide)
    have hlt'' : b < 0xF0 := UInt8.lt_trans hlt (by decide)
    rw [Lead.ofByte?, if_neg fun h => UInt8.not_le.2 hlt h.1,
      if_neg fun h => UInt8.not_le.2 hlt' h.1, if_neg fun h => UInt8.not_le.2 hlt'' h.1]
  rw [decode, if_neg (UInt8.not_lt.2 hb.1), hlead] at h
  cases h

/-! ## Well-formed texts -/

theorem validLength_le (s : Bytes) : validLength s ≤ s.length := by
  induction s using validLength.induct with
  | case1 => simp [validLength]
  | case2 b rest c hc ih =>
    have hle := decode_length_le b rest
    have hpos := decode_length_pos b rest
    rw [validLength]
    simp only [c] at hc ih
    simp only [hc, if_true]
    rw [List.length_drop] at ih
    rw [List.length_cons]
    omega
  | case3 b rest c hc =>
    rw [validLength]
    simp only [c] at hc
    simp [hc]

theorem validLength_lf (t : Bytes) :
    validLength (Ascii.lf :: t) = validLength t + 1 := by
  rw [validLength]
  simp [Nat.add_comm]

/-- **A well-formed text in front adds all of its length** to the well-formed start. -/
theorem validLength_append {s : Bytes} (h : isValid s) (t : Bytes) :
    validLength (s ++ t) = s.length + validLength t := by
  rw [isValid, beq_iff_eq] at h
  induction s using validLength.induct with
  | case1 => simp
  | case2 b rest c hc ih =>
    have hle := decode_length_le b rest
    have hpos := decode_length_pos b rest
    have happ := decode_append hc t
    rw [List.cons_append] at happ ⊢
    simp only [c] at hc ih
    rw [validLength] at h ⊢
    simp only [happ, hc, if_true, List.length_cons] at h ⊢
    have hrest : validLength (rest.drop ((decode (b :: rest)).length - 1))
        = (rest.drop ((decode (b :: rest)).length - 1)).length := by
      rw [List.length_drop]; omega
    rw [List.drop_append_of_le_length (by omega), ih hrest, List.length_drop]
    omega
  | case3 b rest c hc =>
    rw [validLength] at h
    simp only [c] at hc
    simp [hc] at h

theorem isValid_append {s t : Bytes} (hs : isValid s) (ht : isValid t) : isValid (s ++ t) := by
  rw [isValid, beq_iff_eq] at ht ⊢
  rw [validLength_append hs, ht, List.length_append]

theorem isValid_nil : isValid [] := by
  rw [isValid, validLength]
  rfl

/-- **A text is well-formed** when its first unit is, and what follows that. -/
theorem isValid_cons (b : UInt8) (rest : Bytes) : isValid (b :: rest)
    = ((decode (b :: rest)).valid && isValid (rest.drop ((decode (b :: rest)).length - 1))) := by
  obtain ⟨hpos, hle⟩ := decode_length_bounds b rest
  rw [Bool.eq_iff_iff, Bool.and_eq_true, isValid, isValid, beq_iff_eq, beq_iff_eq, validLength]
  cases (decode (b :: rest)).valid with
  | true =>
    simp only [if_true, List.length_cons, List.length_drop, true_and]
    omega
  | false => simp

theorem isContinuation_of_isValid {b : UInt8} {rest : Bytes} (h : isValid (b :: rest)) :
    isContinuation b = false := by
  rw [isValid, validLength, beq_iff_eq] at h
  cases hvalid : (decode (b :: rest)).valid with
  | true => exact isContinuation_of_valid hvalid
  | false => simp [hvalid] at h

theorem isValid_of_lt_validLength {s t : Bytes} {c : UInt8} (hc : isContinuation c = false)
    (h : s.length < validLength (s ++ c :: t)) : isValid s := by
  rw [isValid, beq_iff_eq]
  induction s using validLength.induct with
  | case1 => rw [validLength, List.length_nil]
  | case2 b rest u hu ih =>
    simp only [u] at hu ih
    have hle := decode_length_le b rest
    have hpos := decode_length_pos b rest
    rw [List.cons_append, validLength] at h
    rw [validLength]
    simp only [decode_append_of_not_isContinuation hc, hu, if_true, List.length_cons] at h ⊢
    rw [List.drop_append_of_le_length (by omega)] at h
    rw [ih (by rw [List.length_drop]; omega), List.length_drop]
    omega
  | case3 b rest u hu =>
    simp only [u] at hu
    rw [List.cons_append, validLength] at h
    simp [decode_append_of_not_isContinuation hc, hu] at h

theorem isValid_of_forall_lt {s : Bytes} (h : ∀ b ∈ s, b < 0x80) : isValid s := by
  rw [isValid, beq_iff_eq]
  induction s with
  | nil => rw [validLength, List.length_nil]
  | cons b rest ih =>
    obtain ⟨hb, hrest⟩ := List.forall_mem_cons.1 h
    rw [validLength, decode_of_lt hb]
    simp [ih hrest, Nat.add_comm]

/-! ## Runs of units -/

theorem takeUnits_isPrefix (p : Unit → Bool) (s : Bytes) : takeUnits p s <+: s := by
  induction s using takeUnits.induct p with
  | case1 => simp [takeUnits]
  | case2 b rest c hc ih =>
    simp only [c] at hc ih
    rw [takeUnits]
    simp only [hc, if_true]
    have h := (List.prefix_append_right_inj ((b :: rest).take (decode (b :: rest)).length)).2 ih
    rwa [take_append_drop_unit] at h
  | case3 b rest c hc =>
    simp only [c] at hc
    rw [takeUnits]
    simp [hc]

theorem takeUnits_append_cons {p : Unit → Bool} {c : UInt8} (hc : isContinuation c = false)
    (hp : ∀ t, p (decode (c :: t)) = false) (s t : Bytes) :
    takeUnits p (s ++ c :: t) = takeUnits p s := by
  induction s using takeUnits.induct p with
  | case1 =>
    rw [List.nil_append, takeUnits, takeUnits]
    simp only [hp t, Bool.false_eq_true, if_false]
  | case2 b rest u hu ih =>
    simp only [u] at hu ih
    have hle := decode_length_le b rest
    rw [List.cons_append, takeUnits, takeUnits]
    simp only [decode_append_of_not_isContinuation hc, hu, if_true]
    rw [List.drop_append_of_le_length (by omega), ih, ← List.cons_append,
      List.take_append_of_le_length (by simpa using hle)]
  | case3 b rest u hu =>
    simp only [u] at hu
    rw [List.cons_append, takeUnits, takeUnits]
    simp [decode_append_of_not_isContinuation hc, hu]

theorem takeUnits_append_lf {p : Unit → Bool} (hp : ∀ t, p (decode (Ascii.lf :: t)) = false)
    (s t : Bytes) : takeUnits p (s ++ Ascii.lf :: t) = takeUnits p s :=
  takeUnits_append_cons (by decide) hp s t

theorem takeChars_isPrefix (p : Nat → Bool) (s : Bytes) : takeChars p s <+: s :=
  takeUnits_isPrefix _ s

theorem takeChars_append_lf {p : Nat → Bool} (hp : p 0x0A = false) (s t : Bytes) :
    takeChars p (s ++ Ascii.lf :: t) = takeChars p s :=
  takeUnits_append_lf (fun _ => by simp [hp]) s t

theorem takeChars_append_cons {p : Nat → Bool} {c : UInt8} (hc : c < 0x80)
    (hp : p c.toNat = false) (s t : Bytes) : takeChars p (s ++ c :: t) = takeChars p s :=
  takeUnits_append_cons (isContinuation_of_lt hc) (fun _ => by simp [decode_of_lt hc, hp]) s t

theorem takeChars_ne_nil {p : Nat → Bool} {b : UInt8} {rest : Bytes}
    (hvalid : (decode (b :: rest)).valid) (hp : p (decode (b :: rest)).codePoint) :
    takeChars p (b :: rest) ≠ [] := by
  obtain ⟨n, hn⟩ := Nat.exists_eq_add_of_le' (decode_length_pos b rest)
  rw [takeChars, takeUnits]
  simp [hvalid, hp, hn]

/-! ## The end of a text -/

theorem decodeLast_of_ne_nil {s : Bytes} (hs : s ≠ []) : decodeLast s =
    if (decode (lastSequence s)).valid &&
      (decode (lastSequence s)).length == (lastSequence s).length then decode (lastSequence s)
    else .illFormed 1 := by
  rw [decodeLast, if_neg (by simpa using hs)]

theorem decodeLast_append_cons {c : UInt8} (hc : c < 0x80) (s : Bytes) {t : Bytes} (ht : t ≠ []) :
    decodeLast (s ++ c :: t) = decodeLast t := by
  have hcount : ((s ++ c :: t).reverse.takeWhile isContinuation).length
      = (t.reverse.takeWhile isContinuation).length := by
    rw [List.reverse_append, List.reverse_cons, List.append_assoc, List.singleton_append,
      takeWhile_append_cons (isContinuation_of_lt hc)]
  have hle := (List.takeWhile_prefix isContinuation (l := t.reverse)).length_le
  rw [List.length_reverse] at hle
  have hpos := List.length_pos_iff.2 ht
  rw [decodeLast_of_ne_nil (by simp), decodeLast_of_ne_nil ht, lastSequence, lastSequence, hcount]
  by_cases hfits : min 3 (t.reverse.takeWhile isContinuation).length + 1 ≤ t.length
  · generalize min 3 (t.reverse.takeWhile isContinuation).length + 1 = n at hfits ⊢
    have hlength : (s ++ c :: t).length - n = (s ++ [c]).length + (t.length - n) := by
      simp; omega
    have hdrop : (s ++ c :: t).drop ((s ++ c :: t).length - n) = t.drop (t.length - n) := by
      have hsplit : s ++ c :: t = (s ++ [c]) ++ t := by simp
      rw [hlength, hsplit, List.drop_length_add_append]
    rw [hdrop]
  · -- all of the text continues a unit that does not begin in it
    have hwhole : (t.reverse.takeWhile isContinuation).length = t.length := by omega
    have hall : ∀ b ∈ t, isContinuation b := by
      intro b hb
      have hprefix := (List.takeWhile_prefix isContinuation (l := t.reverse)).eq_of_length
        (by rw [hwhole, List.length_reverse])
      rw [← List.mem_reverse, ← hprefix] at hb
      exact List.mem_takeWhile_imp hb
    have hdrop : (s ++ c :: t).drop ((s ++ c :: t).length
        - (min 3 (t.reverse.takeWhile isContinuation).length + 1)) = c :: t := by
      have hlength : (s ++ c :: t).length
          - (min 3 (t.reverse.takeWhile isContinuation).length + 1) = s.length := by
        simp; omega
      rw [hlength, List.drop_left]
    have hdrop' : t.drop (t.length
        - (min 3 (t.reverse.takeWhile isContinuation).length + 1)) = t := by
      rw [Nat.sub_eq_zero_of_le (by omega), List.drop_zero]
    have hinvalid : (decode t).valid = false := by
      cases t with
      | nil => exact absurd rfl ht
      | cons b t =>
        refine Bool.eq_false_iff.2 fun hvalid => ?_
        have hb := hall b List.mem_cons_self
        rw [isContinuation_of_valid hvalid] at hb
        cases hb
    rw [hdrop, hdrop', decode_of_lt hc, hinvalid]
    simp [ht]

theorem max_length_decodeLast_le {s : Bytes} (hs : s ≠ []) :
    max 1 (decodeLast s).length ≤ s.length := by
  have hpos := List.length_pos_iff.2 hs
  rw [decodeLast_of_ne_nil hs]
  split
  · next h =>
    rw [Bool.and_eq_true, beq_iff_eq] at h
    have hle : (lastSequence s).length ≤ s.length := by
      rw [lastSequence, List.length_drop]
      omega
    omega
  · simpa [Unit.illFormed, Nat.succ_le_iff] using hpos

theorem trimEnd_isPrefix (p : Nat → Bool) (s : Bytes) : trimEnd p s <+: s := by
  fun_induction trimEnd p s with
  | case1 s c h ih => exact ih.trans (List.take_prefix _ s)
  | case2 s c h => exact List.prefix_refl s

theorem trimEnd_append_cons {p : Nat → Bool} {c : UInt8} (hc : c < 0x80) (hp : p c.toNat = false)
    (s t : Bytes) : trimEnd p (s ++ c :: t) = s ++ c :: trimEnd p t := by
  fun_induction trimEnd p t with
  | case1 t u h ih =>
    obtain ⟨hne, hu⟩ := h
    have hle := max_length_decodeLast_le hne
    have htake : (s ++ c :: t).take ((s ++ c :: t).length - max 1 (decodeLast t).length)
        = s ++ c :: t.take (t.length - max 1 (decodeLast t).length) := by
      have hlength : (s ++ c :: t).length - max 1 (decodeLast t).length
          = s.length + (t.length - max 1 (decodeLast t).length + 1) := by
        simp; omega
      rw [hlength, List.take_length_add_append, List.take_succ_cons]
    rw [trimEnd, decodeLast_append_cons hc s hne]
    rw [dif_pos ⟨by simp, hu⟩, htake, ih]
  | case2 t u h =>
    rw [trimEnd]
    refine dif_neg fun hs => h ?_
    cases t with
    | nil =>
      have hlast : decodeLast (s ++ [c]) = ⟨c.toNat, 1, true⟩ := by
        have hsequence : lastSequence (s ++ [c]) = [c] := by
          simp [lastSequence, isContinuation_of_lt hc]
        rw [decodeLast_of_ne_nil (by simp), hsequence, decode_of_lt hc]
        rfl
      rw [hlast] at hs
      rw [hp] at hs
      exact absurd hs.2.2 Bool.false_ne_true
    | cons b t =>
      rw [decodeLast_append_cons hc s (List.cons_ne_nil b t)] at hs
      exact ⟨List.cons_ne_nil b t, hs.2⟩

end WhitespaceAsm.Utf8

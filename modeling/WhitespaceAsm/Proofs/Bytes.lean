import WhitespaceAsm.Bytes

/-!
# The start of a byte string

Two facts about every function that takes bytes from the start of a text: what it takes starts the
text, and it does not look beyond a line feed at which it stops.

* `Ascii.lt_of_isLetter`, `Ascii.lt_of_isDigit`, `Ascii.lt_of_isIdentifier`: classes within ASCII;
  `isDigit_of_mem_decimal`, `decimal_injective`: numbers;
* `takeUntil_isPrefix`, `takeLine_isPrefix`, `append_isPrefix`: what is taken starts the text;
  `forall_mem_takeUntil`: what it consists of; `takeUntil_append_eq_iff`,
  `exists_stop_of_drop_takeUntil`, `not_of_drop_takeWhile`, `not_of_takeWhile_append`: what ends it;
* `takeWhile_append_cons`, `takeWhile_append_lf`, `takeUntil_append_lf`, `takeLine_append_lf`,
  `isPrefixOf_append_lf`: a line feed and more text behind a text change nothing.
-/

namespace WhitespaceAsm

/-! ## Classes -/

namespace Ascii

variable {b : UInt8}

theorem lt_of_isLetter (h : isLetter b) : b < 0x80 := by
  simp only [isLetter, isUpper, isLower, Bool.or_eq_true, Bool.and_eq_true, decide_eq_true_eq] at h
  obtain ⟨-, h⟩ | ⟨-, h⟩ := h
  · exact UInt8.lt_of_le_of_lt h (by decide)
  · exact UInt8.lt_of_le_of_lt h (by decide)

theorem lt_of_isDigit (h : isDigit b) : b < 0x80 := by
  simp only [isDigit, Bool.and_eq_true, decide_eq_true_eq] at h
  exact UInt8.lt_of_le_of_lt h.2 (by decide)

theorem lt_of_isIdentifier (h : isIdentifier b) : b < 0x80 := by
  simp only [isIdentifier, Bool.or_eq_true, beq_iff_eq] at h
  obtain (h | h) | rfl := h
  · exact lt_of_isLetter h
  · exact lt_of_isDigit h
  · decide

end Ascii

/-! ## Numbers -/

theorem charOfNat_toNat_of_isDigit {c : Char} (h : c.isDigit) :
    Char.ofNat (UInt8.ofNat c.toNat).toNat = c := by
  simp only [Char.isDigit, Bool.and_eq_true, decide_eq_true_eq] at h
  have hlt : c.toNat < 2 ^ 8 := Nat.lt_of_le_of_lt (UInt32.le_iff_toNat_le.1 h.2) (by decide)
  rw [UInt8.toNat_ofNat', Nat.mod_eq_of_lt hlt, Char.ofNat_toNat]

theorem isDigit_of_mem_decimal {n : Nat} {b : UInt8} (h : b ∈ decimal n) : Ascii.isDigit b := by
  obtain ⟨c, hc, rfl⟩ := List.mem_map.1 h
  have hdigit : c.isDigit := Nat.isDigit_of_mem_toDigits (by decide) (by decide) hc
  simp only [Char.isDigit, Bool.and_eq_true, decide_eq_true_eq, UInt32.le_iff_toNat_le] at hdigit
  obtain ⟨hle, hge⟩ := hdigit
  have hlt : c.toNat < 2 ^ 8 := Nat.lt_of_le_of_lt hge (by decide)
  simp only [Ascii.isDigit, Bool.and_eq_true, decide_eq_true_eq, UInt8.le_iff_toNat_le,
    UInt8.toNat_ofNat', Nat.mod_eq_of_lt hlt]
  exact ⟨hle, hge⟩

theorem decimal_injective {m n : Nat} (h : decimal m = decimal n) : m = n := by
  -- the digits of a number can be read back from its bytes
  have hdigits : ∀ n, (decimal n).map (fun b => Char.ofNat b.toNat) = Nat.toDigits 10 n := by
    intro n
    rw [decimal, List.map_map]
    refine (List.map_congr_left fun c hc => ?_).trans (List.map_id _)
    exact charOfNat_toNat_of_isDigit (Nat.isDigit_of_mem_toDigits (by decide) (by decide) hc)
  have hmap := congrArg (List.map fun b => Char.ofNat b.toNat) h
  rw [hdigits, hdigits] at hmap
  rw [← Nat.ofDigitChars_toDigits (b := 10) (n := m) (by decide) (by decide), hmap,
    Nat.ofDigitChars_toDigits (by decide) (by decide)]

/-! ## Prefixes -/

theorem takeUntil_isPrefix (stop : Bytes → Bool) (s : Bytes) : takeUntil stop s <+: s := by
  induction s with
  | nil => exact List.prefix_refl _
  | cons b rest ih =>
    rw [takeUntil]
    split
    · exact List.nil_prefix
    · exact (List.prefix_cons_inj b).2 ih

theorem forall_mem_takeUntil {stop : Bytes → Bool} {P : UInt8 → Prop}
    (h : ∀ c t, stop (c :: t) = false → P c) (s : Bytes) : ∀ c ∈ takeUntil stop s, P c := by
  induction s with
  | nil => simp [takeUntil]
  | cons b rest ih =>
    rw [takeUntil]
    split
    · simp
    · next hstop => exact List.forall_mem_cons.2 ⟨h b rest (by simpa using hstop), ih⟩

theorem takeUntil_append_eq_iff (stop : Bytes → Bool) (x rest : Bytes) :
    takeUntil stop (x ++ rest) = x ↔
      (∀ y, y <:+ x → y ≠ [] → stop (y ++ rest) = false) ∧ (rest = [] ∨ stop rest) := by
  induction x with
  | nil =>
    cases rest with
    | nil => simp [takeUntil]
    | cons b rest => by_cases h : stop (b :: rest) <;> simp [takeUntil, h]
  | cons b x ih =>
    rw [List.cons_append, takeUntil]
    constructor
    · intro h
      split at h
      · cases h
      · next hstop =>
        obtain ⟨hsuffix, hrest⟩ := ih.1 (List.cons.inj h).2
        refine ⟨fun y hy hne => ?_, hrest⟩
        obtain rfl | hy := List.suffix_cons_iff.1 hy
        · simpa using hstop
        · exact hsuffix y hy hne
    · rintro ⟨hsuffix, hrest⟩
      have hstop : stop (b :: (x ++ rest)) = false :=
        hsuffix (b :: x) (List.suffix_refl _) (List.cons_ne_nil b x)
      rw [hstop, ih.2 ⟨fun y hy hne => hsuffix y (hy.trans (List.suffix_cons b x)) hne, hrest⟩]
      rfl

theorem exists_stop_of_drop_takeUntil {stop : Bytes → Bool} {s : Bytes} {c : UInt8}
    (hc : c ∈ (s.drop (takeUntil stop s).length).head?) : ∃ t, stop (c :: t) := by
  induction s with
  | nil => cases hc
  | cons b rest ih =>
    rw [takeUntil] at hc
    split at hc
    · next hstop =>
      obtain rfl : b = c := by simpa using hc
      exact ⟨rest, hstop⟩
    · exact ih (by simpa using hc)

theorem not_of_drop_takeWhile {α : Type} {p : α → Bool} {s : List α} {c : α}
    (hc : c ∈ (s.drop (s.takeWhile p).length).head?) : p c = false := by
  induction s with
  | nil => cases hc
  | cons b rest ih =>
    rw [List.takeWhile_cons] at hc
    split at hc
    · exact ih hc
    · next hb =>
      obtain rfl : b = c := by simpa using hc
      simpa using hb

theorem not_of_takeWhile_append {α : Type} {p : α → Bool} {s rest : List α} {c : α}
    (e : s = s.takeWhile p ++ rest) (hc : c ∈ rest.head?) : p c = false := by
  have hdrop := congrArg (List.drop (s.takeWhile p).length) e
  rw [List.drop_left] at hdrop
  exact not_of_drop_takeWhile (hdrop ▸ hc)

theorem takeLine_isPrefix (s : Bytes) : takeLine s <+: s := List.takeWhile_prefix _

theorem append_isPrefix {s x y : Bytes} (hx : x <+: s) (hy : y <+: s.drop x.length) :
    x ++ y <+: s := by
  obtain ⟨rest, rfl⟩ := hx
  rw [List.drop_left] at hy
  exact (List.prefix_append_right_inj x).2 hy

theorem append_drop_length {s x : Bytes} (h : x <+: s) : x ++ s.drop x.length = s := by
  obtain ⟨rest, rfl⟩ := h
  rw [List.drop_left]

theorem take_drop_middle {s x y z : Bytes} (h : s = x ++ (y ++ z)) :
    (s.drop x.length).take y.length = y := by
  rw [h, List.drop_left, List.take_left]

theorem takeWhile_append_cons {p : UInt8 → Bool} {c : UInt8} (hc : p c = false) (s t : Bytes) :
    (s ++ c :: t).takeWhile p = s.takeWhile p := by
  induction s with
  | nil => simp [hc]
  | cons b rest ih => simp only [List.cons_append, List.takeWhile_cons, ih]

/-! ## A line feed behind a text -/

section LineFeed

variable (s t : Bytes)

theorem takeWhile_append_lf {p : UInt8 → Bool} (hp : p Ascii.lf = false) :
    (s ++ Ascii.lf :: t).takeWhile p = s.takeWhile p :=
  takeWhile_append_cons hp s t

theorem takeLine_append_lf : takeLine (s ++ Ascii.lf :: t) = takeLine s :=
  takeWhile_append_lf s t (by decide)

theorem takeUntil_append_lf (stop : Bytes → Bool) (hlf : ∀ t, stop (Ascii.lf :: t) = true)
    (hstop : ∀ b s, stop (b :: (s ++ Ascii.lf :: t)) = stop (b :: s)) :
    takeUntil stop (s ++ Ascii.lf :: t) = takeUntil stop s := by
  induction s with
  | nil => simp [takeUntil, hlf]
  | cons b rest ih => simp only [List.cons_append, takeUntil, hstop, ih]

theorem isPrefixOf_append_lf {marker : Bytes} (h : Ascii.lf ∉ marker) :
    marker.isPrefixOf (s ++ Ascii.lf :: t) = marker.isPrefixOf s := by
  induction marker generalizing s with
  | nil => simp
  | cons m marker ih =>
    rw [List.mem_cons, not_or] at h
    cases s with
    | nil => simp [List.isPrefixOf, Ne.symm h.1]
    | cons b rest => simp only [List.cons_append, List.isPrefixOf, ih rest h.2]

variable {s t}

theorem drop_append_lf {x : Bytes} (h : x <+: s) :
    (s ++ Ascii.lf :: t).drop x.length = s.drop x.length ++ Ascii.lf :: t :=
  List.drop_append_of_le_length h.length_le

end LineFeed

end WhitespaceAsm

import Mathlib.Data.List.Induction
import WhitespaceAsm.Proofs.Utf8.Encode

/-!
# Characters of a class at the ends of a text

What is taken from the start of a text, and what is trimmed from its end, is a run of encoded scalar
values of the class; and a run that stands there goes as a whole.

* **`Run`**: texts made of scalar values of a class;
* `takeChars_encode`; **`run_takeChars`**, `Run.takeChars_append`: runs at the start of a text;
* `decodeLast_append_encode`, `exists_append_encode`: the last unit of a text;
  **`exists_run_trimEnd`**, `Run.trimEnd_append`: runs at its end.
-/

namespace WhitespaceAsm.Utf8

/-- **The text is made of scalar values of a class.** -/
def Run (p : Nat → Bool) (w : Bytes) : Prop :=
  ∃ cs : List Nat, (∀ c ∈ cs, c.isValidChar ∧ p c) ∧ w = cs.flatMap encode

namespace Run

variable {p : Nat → Bool} {c : Nat} {w : Bytes}

theorem nil : Run p [] := ⟨[], by simp, rfl⟩

theorem encode_append (hc : c.isValidChar) (hp : p c) (hw : Run p w) : Run p (encode c ++ w) := by
  obtain ⟨cs, hcs, rfl⟩ := hw
  exact ⟨c :: cs, List.forall_mem_cons.2 ⟨⟨hc, hp⟩, hcs⟩, rfl⟩

theorem isValid (hw : Run p w) : Utf8.isValid w := by
  obtain ⟨cs, hcs, rfl⟩ := hw
  exact (isValid_iff_units _).2 (units_flatMap_encode fun c hc => (hcs c hc).1).1

theorem append_encode (hc : c.isValidChar) (hp : p c) (hw : Run p w) : Run p (w ++ encode c) := by
  obtain ⟨cs, hcs, rfl⟩ := hw
  refine ⟨cs ++ [c], List.forall_mem_append.2 ⟨hcs, List.forall_mem_singleton.2 ⟨hc, hp⟩⟩, ?_⟩
  rw [List.flatMap_append, List.flatMap_singleton]

end Run

/-! ## The start of a text -/

theorem takeChars_encode {c : Nat} (hc : c.isValidChar) (p : Nat → Bool) (t : Bytes) :
    takeChars p (encode c ++ t) = if p c then encode c ++ takeChars p t else [] := by
  obtain ⟨b, rest, hcons, hdecode, hdrop⟩ := exists_cons_encode hc t
  have htake : (b :: rest).take (encode c).length = encode c := by
    rw [← hcons, List.take_left]
  rw [takeChars, hcons, takeUnits]
  simp only [hdecode, hdrop, htake, Bool.true_and, takeChars]

/-- **What is taken from the start** of a text is a run. -/
theorem run_takeChars (p : Nat → Bool) (s : Bytes) : Run p (takeChars p s) := by
  induction s using validInduction with
  | nil => simpa [takeChars, takeUnits] using Run.nil
  | encoding c t hc ih =>
    rw [takeChars_encode hc]
    split
    · next hp => exact ih.encode_append hc hp
    · exact .nil
  | illFormed b rest hill =>
    rw [takeChars, takeUnits]
    simpa [hill] using Run.nil

theorem Run.takeChars_append {p : Nat → Bool} {w : Bytes} (hw : Run p w) (t : Bytes) :
    takeChars p (w ++ t) = w ++ takeChars p t := by
  obtain ⟨cs, hcs, rfl⟩ := hw
  induction cs with
  | nil => rfl
  | cons c cs ih =>
    obtain ⟨⟨hc, hp⟩, hcs⟩ := List.forall_mem_cons.1 hcs
    rw [List.flatMap_cons, List.append_assoc, takeChars_encode hc, if_pos hp, ih hcs,
      List.append_assoc]

theorem not_encode_isPrefix_drop {p : Nat → Bool} {c : Nat} (hc : c.isValidChar) (hp : p c)
    (s : Bytes) : ¬ encode c <+: s.drop (takeChars p s).length := by
  rintro ⟨t, ht⟩
  have hsplit := List.prefix_iff_eq_append.1 (takeChars_isPrefix p s)
  have htake := (run_takeChars p s).takeChars_append (encode c ++ t)
  rw [takeChars_encode hc, if_pos hp, ht, hsplit] at htake
  have hlength := congrArg List.length htake
  rw [List.length_append, List.length_append] at hlength
  have hpos := List.length_pos_iff.2 (encode_ne_nil c)
  omega

/-! ## The end of a text -/

theorem exists_encode_eq_cons (c : Nat) :
    ∃ b rest, encode c = b :: rest ∧ rest.length ≤ 3 ∧ ∀ x ∈ rest, isContinuation x := by
  have hcontinues : ∀ ns : List Nat, ∀ x ∈ ns.map fun n => UInt8.ofNat (0x80 + n % 0x40),
      isContinuation x := by
    intro ns x hx
    obtain ⟨n, -, rfl⟩ := List.mem_map.1 hx
    rw [isContinuation, Bool.and_eq_true, decide_eq_true_eq, decide_eq_true_eq,
      UInt8.le_iff_toNat_le, UInt8.le_iff_toNat_le, UInt8.toNat_ofNat']
    simp only [UInt8.reduceToNat]
    omega
  unfold encode
  split_ifs
  · exact ⟨_, _, rfl, by simp, hcontinues []⟩
  · exact ⟨_, _, rfl, by simp, hcontinues [c]⟩
  · exact ⟨_, _, rfl, by simp, hcontinues [c / 0x40, c]⟩
  · exact ⟨_, _, rfl, by simp, hcontinues [c / 0x1000, c / 0x40, c]⟩

theorem decodeLast_append_encode {c : Nat} (hc : c.isValidChar) (s : Bytes) :
    decodeLast (s ++ encode c) = ⟨c, (encode c).length, true⟩ := by
  have hdecode := decode_encode hc []
  rw [List.append_nil] at hdecode
  have hlast : lastSequence (s ++ encode c) = encode c := by
    obtain ⟨b, rest, hcons, hlength, hrest⟩ := exists_encode_eq_cons c
    rw [hcons] at hdecode ⊢
    have hb : isContinuation b = false := isContinuation_of_valid (by rw [hdecode])
    have hcount : (s ++ b :: rest).reverse.takeWhile isContinuation = rest.reverse := by
      rw [List.reverse_append, List.reverse_cons, List.append_assoc,
        List.takeWhile_append_of_pos fun x hx => hrest x (List.mem_reverse.1 hx)]
      simp [hb]
    have hdrop : (s ++ b :: rest).length - (min 3 rest.length + 1) = s.length := by
      rw [List.length_append, List.length_cons]
      omega
    rw [lastSequence, hcount, List.length_reverse, hdrop, List.drop_left]
  rw [decodeLast_of_ne_nil (List.append_ne_nil_of_right_ne_nil s (encode_ne_nil c)), hlast,
    hdecode]
  simp

theorem exists_append_encode {s : Bytes} (h : (decodeLast s).valid) :
    ∃ t, (decodeLast s).codePoint.isValidChar ∧ s = t ++ encode (decodeLast s).codePoint := by
  have hs : s ≠ [] := by
    rintro rfl
    cases h
  have hlast := h
  rw [decodeLast_of_ne_nil hs] at hlast
  split at hlast
  · next hwhole =>
    obtain ⟨c, t, hc, hsequence⟩ := exists_encode_of_valid hlast
    -- the unit is the whole of the last sequence, so that nothing follows the encoding
    rw [Bool.and_eq_true, beq_iff_eq, hsequence, decode_encode hc, List.length_append] at hwhole
    dsimp only at hwhole
    obtain rfl : t = [] := List.eq_nil_of_length_eq_zero (by omega)
    obtain ⟨t, hsplit⟩ : ∃ t, t ++ lastSequence s = s := List.drop_suffix _ s
    rw [hsequence, List.append_nil] at hsplit
    have hcode : (decodeLast s).codePoint = c := by
      rw [← hsplit, decodeLast_append_encode hc]
    rw [hcode]
    exact ⟨t, hc, hsplit.symm⟩
  · cases hlast

theorem length_decodeLast_pos {s : Bytes} (h : (decodeLast s).valid) :
    1 ≤ (decodeLast s).length := by
  obtain ⟨t, hc, hs⟩ := exists_append_encode h
  have hlast := decodeLast_append_encode hc t
  rw [← hs] at hlast
  rw [hlast]
  exact List.length_pos_iff.2 (encode_ne_nil _)

theorem trimEnd_append_encode {p : Nat → Bool} {c : Nat} (hc : c.isValidChar) (hp : p c)
    (s : Bytes) : trimEnd p (s ++ encode c) = trimEnd p s := by
  have hne := List.append_ne_nil_of_right_ne_nil s (encode_ne_nil c)
  have hpos := List.length_pos_iff.2 (encode_ne_nil c)
  have hlength : (s ++ encode c).length - max 1 (encode c).length = s.length := by
    rw [List.length_append]
    omega
  rw [trimEnd, decodeLast_append_encode hc]
  rw [dif_pos ⟨hne, rfl, hp⟩, hlength, List.take_left]

/-- **What is trimmed from the end** of a text is a run. -/
theorem exists_run_trimEnd (p : Nat → Bool) (s : Bytes) : ∃ w, Run p w ∧ s = trimEnd p s ++ w := by
  fun_induction trimEnd p s with
  | case1 s c h ih =>
    obtain ⟨t, hc, hs⟩ := exists_append_encode h.2.1
    have hlast := decodeLast_append_encode hc t
    rw [← hs] at hlast
    have hunit : c.length = (encode c.codePoint).length := congrArg Unit.length hlast
    have htotal : s.length = t.length + (encode c.codePoint).length :=
      (congrArg List.length hs).trans List.length_append
    have hpos := List.length_pos_iff.2 (encode_ne_nil c.codePoint)
    have htake : s.take (s.length - max 1 c.length) = t := by
      rw [hunit, htotal, Nat.max_eq_right hpos, Nat.add_sub_cancel]
      exact (congrArg (List.take t.length) hs).trans List.take_left
    rw [htake] at ih ⊢
    obtain ⟨w, hw, ht⟩ := ih
    exact ⟨w ++ encode c.codePoint, hw.append_encode hc h.2.2,
      by rw [← List.append_assoc, ← ht, ← hs]⟩
  | case2 s c h => exact ⟨[], .nil, (List.append_nil s).symm⟩

/-- **A run at the end** of a text is trimmed as a whole. -/
theorem Run.trimEnd_append {p : Nat → Bool} {w : Bytes} (hw : Run p w) (s : Bytes) :
    trimEnd p (s ++ w) = trimEnd p s := by
  obtain ⟨cs, hcs, rfl⟩ := hw
  induction cs using List.reverseRecOn with
  | nil => rw [List.flatMap_nil, List.append_nil]
  | append_singleton cs c ih =>
    obtain ⟨hcs, hlast⟩ := List.forall_mem_append.1 hcs
    obtain ⟨hc, hp⟩ := List.forall_mem_singleton.1 hlast
    rw [List.flatMap_append, List.flatMap_singleton, ← List.append_assoc,
      trimEnd_append_encode hc hp, ih hcs]

/-- **No character of the class** stands at the end of a trimmed text. -/
theorem not_encode_isSuffix_trimEnd {p : Nat → Bool} {c : Nat} (hc : c.isValidChar) (hp : p c)
    (s : Bytes) : ¬ encode c <:+ trimEnd p s := by
  rintro ⟨t, ht⟩
  obtain ⟨w, hw, hsplit⟩ := exists_run_trimEnd p s
  have htrim : trimEnd p (trimEnd p s) = trimEnd p s := by
    conv_rhs => rw [hsplit, hw.trimEnd_append]
  rw [← ht, trimEnd_append_encode hc hp] at htrim
  have hle := (trimEnd_isPrefix p t).length_le
  have hpos := List.length_pos_iff.2 (encode_ne_nil c)
  rw [htrim, List.length_append] at hle
  omega

end WhitespaceAsm.Utf8

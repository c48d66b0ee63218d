import WhitespaceAsm.FlagSet

/-!
# Members of sets of flags

* **`FlagSet.EmptyOr`**: a set that has a member of some kind unless it is empty.
-/

namespace WhitespaceAsm

namespace FlagSet

variable {ε : Type}

@[simp]
theorem union_empty (s : FlagSet ε) : s ∪ ∅ = s := by
  change FlagSet.mk (s.bits ||| 0) = s
  rw [Nat.or_zero]

@[simp]
theorem empty_union (s : FlagSet ε) : ∅ ∪ s = s := by
  change FlagSet.mk (0 ||| s.bits) = s
  rw [Nat.zero_or]

theorem isEmpty_iff {s : FlagSet ε} : s.isEmpty ↔ s = ∅ := by
  rw [isEmpty, beq_iff_eq]
  exact ⟨fun h => congrArg FlagSet.mk h, fun h => congrArg FlagSet.bits h⟩

theorem union_eq_empty {s t : FlagSet ε} (h : s ∪ t = ∅) : s = ∅ ∧ t = ∅ := by
  obtain ⟨hs, ht⟩ := Nat.or_eq_zero_iff.1 (congrArg FlagSet.bits h)
  exact ⟨congrArg FlagSet.mk hs, congrArg FlagSet.mk ht⟩

theorem union_eq_empty_iff {s t : FlagSet ε} : s ∪ t = ∅ ↔ s = ∅ ∧ t = ∅ := by
  refine ⟨union_eq_empty, ?_⟩
  rintro ⟨rfl, rfl⟩
  exact union_empty ∅

variable [Flag ε]

theorem mem_union {e : ε} {s t : FlagSet ε} : e ∈ s ∪ t ↔ e ∈ s ∨ e ∈ t := by
  change (s.bits ||| t.bits).testBit _ = true ↔ s.bits.testBit _ = true ∨ t.bits.testBit _ = true
  rw [Nat.testBit_or, Bool.or_eq_true]

theorem mem_inter {e : ε} {s t : FlagSet ε} : e ∈ s ∩ t ↔ e ∈ s ∧ e ∈ t := by
  change (s.bits &&& t.bits).testBit _ = true ↔ s.bits.testBit _ = true ∧ t.bits.testBit _ = true
  rw [Nat.testBit_and, Bool.and_eq_true]

theorem mem_singleton_self (e : ε) : e ∈ ({e} : FlagSet ε) := by
  change (1 <<< Flag.bit e).testBit (Flag.bit e) = true
  rw [Nat.one_shiftLeft, Nat.testBit_two_pow_self]

theorem not_mem_empty (e : ε) : e ∉ (∅ : FlagSet ε) := by
  change ¬ (0 : Nat).testBit _ = true
  rw [Nat.zero_testBit]
  exact Bool.false_ne_true

theorem singleton_ne_empty (e : ε) : ({e} : FlagSet ε) ≠ ∅ := fun h =>
  not_mem_empty e (h ▸ mem_singleton_self e)

theorem mem_singleton {e f : ε} : e ∈ ({f} : FlagSet ε) ↔ Flag.bit f = Flag.bit e := by
  change (1 <<< Flag.bit f).testBit (Flag.bit e) = true ↔ _
  rw [Nat.one_shiftLeft, Nat.testBit_two_pow, decide_eq_true_eq]

theorem mem_insert {e f : ε} {s : FlagSet ε} :
    e ∈ insert f s ↔ Flag.bit f = Flag.bit e ∨ e ∈ s := by
  rw [← mem_singleton]
  exact mem_union

theorem isEmpty_eq_false {e : ε} {s : FlagSet ε} (h : e ∈ s) : s.isEmpty = false := by
  refine beq_false_of_ne fun hzero => ?_
  change s.bits.testBit _ = true at h
  rw [hzero, Nat.zero_testBit] at h
  cases h

/-- The set is empty or has a member with the property. -/
def EmptyOr (p : ε → Prop) (s : FlagSet ε) : Prop := s = ∅ ∨ ∃ e ∈ s, p e

namespace EmptyOr

variable {p : ε → Prop} {s t : FlagSet ε} {e : ε}

theorem empty : EmptyOr p (∅ : FlagSet ε) := .inl rfl

theorem singleton (he : p e) : EmptyOr p ({e} : FlagSet ε) := .inr ⟨e, mem_singleton_self e, he⟩

theorem flagIf {c : Prop} [Decidable c] (he : p e) : EmptyOr p (flagIf c e) := by
  rw [WhitespaceAsm.flagIf]
  split
  · exact .singleton he
  · exact .empty

theorem eq_empty (hs : EmptyOr p s) (h : ∀ e ∈ s, ¬ p e) : s = ∅ := by
  obtain hs | ⟨e, hmem, he⟩ := hs
  · exact hs
  · exact absurd he (h e hmem)

theorem union (hs : EmptyOr p s) (ht : EmptyOr p t) : EmptyOr p (s ∪ t) := by
  obtain rfl | ⟨e, hmem, he⟩ := hs
  · rwa [empty_union]
  · exact .inr ⟨e, mem_union.2 (.inl hmem), he⟩

end EmptyOr

end FlagSet

section FlagIf

variable {ε : Type} [Flag ε] {c : Prop} [Decidable c] {e : ε}

theorem mem_flagIf (hc : c) : e ∈ flagIf c e := by
  rw [flagIf, if_pos hc]
  exact FlagSet.mem_singleton_self e

theorem mem_flagIf_iff {f : ε} : e ∈ flagIf c f ↔ c ∧ Flag.bit f = Flag.bit e := by
  by_cases hc : c
  · rw [flagIf, if_pos hc, FlagSet.mem_singleton, and_iff_right hc]
  · rw [flagIf, if_neg hc]
    exact iff_of_false (FlagSet.not_mem_empty e) fun h => hc h.1

theorem flagIf_eq_empty (hc : ¬ c) : flagIf c e = ∅ := if_neg hc

theorem not_of_flagIf_eq_empty (h : flagIf c e = ∅) : ¬ c := fun hc =>
  FlagSet.not_mem_empty e (h ▸ mem_flagIf hc)

theorem flagIf_eq_empty_iff : flagIf c e = ∅ ↔ ¬ c := ⟨not_of_flagIf_eq_empty, flagIf_eq_empty⟩

end FlagIf

end WhitespaceAsm

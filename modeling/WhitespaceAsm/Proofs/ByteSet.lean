import Mathlib.Algebra.Order.Group.Nat
import WhitespaceAsm.ByteSet

/-!
# The order of the bytes in a set

The rank of a byte is the number of members before it, so that the members of a set have the ranks
below its size, one each and in their order. A new member moves the ranks behind it by one.

* `ByteSet.bit`: the set as a row of bits; `mem_iff_bit`, **`rank_eq`**, **`size_eq`**: membership,
  ranks and the size are read from it;
* `rank_lt_size`, `rank_injective`: the ranks of members;
* `mem_insert`, `size_insert`, `rank_insert`: a set with one more member.
-/

namespace WhitespaceAsm

/-! ## Words -/

theorem popCount_eq (w : UInt64) : popCount w = (List.range 64).countP w.toNat.testBit := rfl

theorem toNat_one_shiftLeft {k : UInt64} (hk : k.toNat < 64) :
    ((1 : UInt64) <<< k).toNat = 2 ^ k.toNat := by
  have hpow : 2 ^ k.toNat < 2 ^ 64 := Nat.pow_lt_pow_right (by decide) hk
  rw [UInt64.toNat_shiftLeft, UInt64.toNat_one, Nat.mod_eq_of_lt hk, Nat.one_shiftLeft,
    Nat.mod_eq_of_lt hpow]

theorem popCount_and_mask (w : UInt64) {k : UInt64} (hk : k.toNat < 64) :
    popCount (w &&& ((1 <<< k) - 1)) = (List.range k.toNat).countP w.toNat.testBit := by
  have hle : (1 : UInt64) ≤ 1 <<< k := by
    rw [UInt64.le_iff_toNat_le, toNat_one_shiftLeft hk]
    exact Nat.one_le_two_pow
  have hbit : (w &&& ((1 <<< k) - 1)).toNat.testBit
      = fun i => w.toNat.testBit i && decide (i < k.toNat) := by
    funext i
    rw [UInt64.toNat_and, UInt64.toNat_sub_of_le _ _ hle, toNat_one_shiftLeft hk,
      UInt64.toNat_one, Nat.testBit_and, Nat.testBit_two_pow_sub_one]
  have hsplit : 64 = k.toNat + (64 - k.toNat) := by omega
  have hbehind : ((List.range (64 - k.toNat)).map (k.toNat + ·)).countP
      (fun i => w.toNat.testBit i && decide (i < k.toNat)) = 0 := by
    rw [List.countP_map, List.countP_eq_zero]
    intro i _
    simp
  rw [popCount_eq, hbit, hsplit, List.range_add, List.countP_append, hbehind, Nat.add_zero]
  refine List.countP_congr fun i hi => ?_
  simp [List.mem_range.1 hi]

theorem popCounts_eq (ws : List UInt64) : popCounts ws
    = (List.range (64 * ws.length)).countP fun i =>
      (ws.getD (i / 64) 0).toNat.testBit (i % 64) := by
  induction ws with
  | nil => rfl
  | cons w ws ih =>
    rw [popCounts, ih, List.length_cons, Nat.mul_succ, Nat.add_comm (64 * _), List.range_add,
      List.countP_append, List.countP_map, popCount_eq]
    refine congrArg₂ (· + ·) ?_ ?_
    · refine List.countP_congr fun i hi => ?_
      have hlt := List.mem_range.1 hi
      rw [Nat.div_eq_of_lt hlt, Nat.mod_eq_of_lt hlt]
      rfl
    · refine List.countP_congr fun i _ => ?_
      have hdiv : (64 + i) / 64 = i / 64 + 1 := by omega
      have hmod : (64 + i) % 64 = i % 64 := by omega
      simp only [Function.comp_apply, hdiv, hmod, List.getD_cons_succ]

namespace ByteSet

variable (s : ByteSet) (b : UInt8)

/-! ## The bits of a set -/

/-- **The bit of a place**, counted through all words. -/
def bit (i : Nat) : Bool := (s.words.toList.getD (i / 64) 0).toNat.testBit (i % 64)

theorem toNat_bitIndex : (bitIndex b).toNat = b.toNat % 64 := by
  simp [bitIndex]

theorem toNat_bitIndex_lt : (bitIndex b).toNat < 64 := by
  rw [toNat_bitIndex]
  omega

theorem getD_words : s.words.toList.getD (b.toNat / 64) 0 = s.word b := by
  have hlt : b.toNat / 64 < s.words.toList.length := by
    rw [Vector.length_toList]
    exact (wordIndex b).isLt
  rw [List.getD_eq_getElem?_getD, List.getElem?_eq_getElem hlt, Option.getD_some,
    Vector.getElem_toList]
  rfl

theorem bit_toNat : s.bit b.toNat = (s.word b).toNat.testBit (b.toNat % 64) := by
  rw [bit, getD_words]

variable {s b} in
theorem mem_iff_bit : b ∈ s ↔ s.bit b.toNat := by
  change s.contains b = true ↔ _
  have hshift : ((s.word b >>> bitIndex b) &&& 1).toNat
      = 1 &&& ((s.word b).toNat >>> (b.toNat % 64)) := by
    rw [UInt64.toNat_and, UInt64.toNat_shiftRight, Nat.mod_eq_of_lt (toNat_bitIndex_lt b),
      toNat_bitIndex, UInt64.toNat_one, Nat.and_comm]
  rw [bit_toNat, contains, Nat.testBit, bne_iff_ne, bne_iff_ne, ← hshift, ne_eq, ne_eq,
    ← UInt64.toNat_inj, UInt64.toNat_zero]

/-- **The rank** counts the bits before the byte. -/
theorem rank_eq : s.rank b = (List.range b.toNat).countP s.bit := by
  have hword : b.toNat = 64 * (b.toNat / 64) + b.toNat % 64 := by omega
  have hlength : (s.words.toList.take (wordIndex b)).length = b.toNat / 64 := by
    rw [List.length_take, Vector.length_toList]
    exact Nat.min_eq_left (wordIndex b).isLt.le
  -- the words before, and then the bits before in the word of the byte
  have hbefore : popCounts (s.words.toList.take (wordIndex b))
      = (List.range (64 * (b.toNat / 64))).countP s.bit := by
    rw [popCounts_eq, hlength]
    refine List.countP_congr fun i hi => ?_
    have hi' := List.mem_range.1 hi
    have hlt : i / 64 < wordIndex b := by
      change i / 64 < b.toNat / 64
      omega
    rw [bit, List.getD_eq_getElem?_getD, List.getD_eq_getElem?_getD, List.getElem?_take_of_lt hlt]
  have hbehind : ((List.range (b.toNat % 64)).map (64 * (b.toNat / 64) + ·)).countP s.bit
      = (List.range (b.toNat % 64)).countP (s.word b).toNat.testBit := by
    rw [List.countP_map]
    refine List.countP_congr fun i hi => ?_
    have hi' := List.mem_range.1 hi
    have hdiv : (64 * (b.toNat / 64) + i) / 64 = b.toNat / 64 := by omega
    have hmod : (64 * (b.toNat / 64) + i) % 64 = i := by omega
    rw [Function.comp_apply, bit, hdiv, hmod, getD_words]
  rw [hword, List.range_add, List.countP_append, ← hbefore, hbehind, rank]
  split
  · next hzero =>
    rw [← toNat_bitIndex, hzero]
    rfl
  · rw [popCount_and_mask _ (toNat_bitIndex_lt b), toNat_bitIndex]

theorem size_eq : s.size = (List.range 256).countP s.bit := by
  rw [size, popCounts_eq, Vector.length_toList]
  rfl

/-! ## Ranks of members -/

variable {s b} {c : UInt8}

theorem rank_lt_rank (hb : b ∈ s) (hlt : b.toNat < c.toNat) : s.rank b < s.rank c := by
  have hsplit : c.toNat = (b.toNat + 1) + (c.toNat - (b.toNat + 1)) := by omega
  rw [rank_eq, rank_eq, hsplit, List.range_add, List.countP_append, List.range_succ,
    List.countP_append, List.countP_singleton, if_pos (mem_iff_bit.1 hb)]
  omega

theorem rank_lt_size (hb : b ∈ s) : s.rank b < s.size := by
  have hsplit : 256 = (b.toNat + 1) + (256 - (b.toNat + 1)) := by
    have := b.toNat_lt
    omega
  rw [rank_eq, size_eq, hsplit, List.range_add, List.countP_append, List.range_succ,
    List.countP_append, List.countP_singleton, if_pos (mem_iff_bit.1 hb)]
  omega

theorem rank_le_rank (hle : b.toNat ≤ c.toNat) : s.rank b ≤ s.rank c := by
  rw [rank_eq, rank_eq, ← Nat.add_sub_cancel' hle, List.range_add, List.countP_append]
  exact Nat.le_add_right _ _

/-- **Every member has a rank of its own.** -/
theorem rank_injective (hb : b ∈ s) (hc : c ∈ s) (h : s.rank b = s.rank c) : b = c := by
  rw [← UInt8.toNat_inj]
  by_contra hne
  obtain hlt | hlt := Nat.lt_or_gt_of_ne hne
  · exact absurd h (rank_lt_rank hb hlt).ne
  · exact absurd h (rank_lt_rank hc hlt).ne'

/-! ## One more member -/

theorem bit_insert (i : Nat) : (s.insert b).bit i = (s.bit i || decide (i = b.toNat)) := by
  have hbit : ((1 : UInt64) <<< bitIndex b).toNat = 2 ^ (b.toNat % 64) := by
    rw [toNat_one_shiftLeft (toNat_bitIndex_lt b), toNat_bitIndex]
  have hlt : b.toNat / 64 < s.words.toList.length := by
    rw [Vector.length_toList]
    exact (wordIndex b).isLt
  have hset : (s.insert b).words.toList
      = s.words.toList.set (b.toNat / 64) (s.word b ||| (1 <<< bitIndex b)) :=
    Vector.toList_set (wordIndex b).isLt
  rw [bit, bit, hset, List.getD_eq_getElem?_getD, List.getElem?_set]
  by_cases hword : b.toNat / 64 = i / 64
  · have hi : b.toNat % 64 = i % 64 ↔ i = b.toNat := by omega
    rw [if_pos hword, if_pos hlt, Option.getD_some, UInt64.toNat_or, Nat.testBit_or, hbit,
      Nat.testBit_two_pow, ← hword, getD_words, decide_eq_decide.2 hi]
  · have hi : i ≠ b.toNat := fun h => hword (by rw [h])
    rw [if_neg hword, ← List.getD_eq_getElem?_getD, decide_eq_false hi, Bool.or_false]

theorem mem_insert : c ∈ s.insert b ↔ c ∈ s ∨ c = b := by
  rw [mem_iff_bit, mem_iff_bit, bit_insert, Bool.or_eq_true, decide_eq_true_eq, UInt8.toNat_inj]

theorem countP_bit_insert (hb : b ∉ s) (n : Nat) : (List.range n).countP (s.insert b).bit
    = (List.range n).countP s.bit + if b.toNat < n then 1 else 0 := by
  have hbit : s.bit b.toNat = false := Bool.eq_false_iff.2 fun h => hb (mem_iff_bit.2 h)
  induction n with
  | zero => rfl
  | succ n ih =>
    rw [List.range_succ, List.countP_append, List.countP_append, ih, List.countP_singleton,
      List.countP_singleton, bit_insert]
    by_cases hn : n = b.toNat
    · subst hn
      simp [hbit]
    · have hlt : b.toNat < n + 1 ↔ b.toNat < n := by omega
      simp only [hn, decide_false, Bool.or_false, hlt]
      omega

theorem size_insert (hb : b ∉ s) : (s.insert b).size = s.size + 1 := by
  rw [size_eq, size_eq, countP_bit_insert hb, if_pos b.toNat_lt]

/-- **A new member moves the ranks behind it by one.** -/
theorem rank_insert (hb : b ∉ s) (c : UInt8) :
    (s.insert b).rank c = s.rank c + if b.toNat < c.toNat then 1 else 0 := by
  rw [rank_eq, rank_eq, countP_bit_insert hb]

theorem rank_le_size (s : ByteSet) (b : UInt8) : s.rank b ≤ s.size := by
  have hsplit : 256 = b.toNat + (256 - b.toNat) := by
    have := b.toNat_lt
    omega
  rw [rank_eq, size_eq, hsplit, List.range_add, List.countP_append]
  exact Nat.le_add_right _ _

theorem bit_empty (i : Nat) : (∅ : ByteSet).bit i = false := by
  change ((List.replicate 4 (0 : UInt64)).getD (i / 64) 0).toNat.testBit (i % 64) = false
  rw [List.getD_eq_getElem?_getD, List.getElem?_replicate]
  split <;> exact Nat.zero_testBit _

theorem notMem_empty (b : UInt8) : b ∉ (∅ : ByteSet) := by
  rw [mem_iff_bit, bit_empty]
  exact Bool.false_ne_true

theorem size_empty : (∅ : ByteSet).size = 0 := by
  rw [size_eq, List.countP_eq_zero]
  intro i _
  rw [bit_empty]
  exact Bool.false_ne_true

end ByteSet

end WhitespaceAsm

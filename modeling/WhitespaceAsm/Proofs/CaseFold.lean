import WhitespaceAsm.CaseFold
import WhitespaceAsm.Proofs.Bytes

/-!
# Folding the start of a text

A folded byte stands for one to three bytes of the text, and nothing behind them matters for it. The
letters outside ASCII that are folded are not made by folding others, so that one folding is enough.

* **`matchLength?_eq_some`**: a match covers a part of the text that folds to what is wanted;
* `sourceLength`: the bytes of a text that its first folded bytes stand for;
  **`matchLength?_eq_some_iff`**: they are what a match covers;
* `Plain`, `plain_or_isLower`: a byte stands for itself or is folded to a small letter;
  **`isPrefix_of_isPrefix_fold`**, `plain_next_fold`: folding makes nothing that could be folded;
* **`fold_fold_and_matchLength?`**: folding twice, and what a match is.
-/

namespace WhitespaceAsm.CaseFold

variable (mode : CaseFold)

/-! ## One folded byte -/

theorem next_length_pos (b : UInt8) (rest : Bytes) : 1 ≤ (mode.next b rest).length := by
  unfold next
  split
  · exact Nat.le_refl 1
  · split
    · exact Nat.le_refl 1
    · split
      · simp [kelvinSign]
      · split
        · simp [capitalIWithDot]
        · exact Nat.le_refl 1

theorem next_length_le (b : UInt8) (rest : Bytes) :
    (mode.next b rest).length ≤ rest.length + 1 := by
  unfold next
  split
  · simp
  · split
    · simp
    · split
      · next h =>
        simp only [Bool.and_eq_true, List.isPrefixOf_iff_prefix] at h
        exact h.2.length_le
      · split
        · next h =>
          simp only [Bool.and_eq_true, List.isPrefixOf_iff_prefix] at h
          exact h.2.length_le
        · simp

theorem and_isPrefixOf_take {flag : Bool} {marker s : Bytes} {n : Nat}
    (h : (flag && marker.isPrefixOf s) = true → marker.length ≤ n) :
    (flag && marker.isPrefixOf (s.take n)) = (flag && marker.isPrefixOf s) := by
  cases flag with
  | false => rfl
  | true =>
    rw [Bool.true_and] at h ⊢
    rw [Bool.true_and, Bool.eq_iff_iff, List.isPrefixOf_iff_prefix, List.isPrefixOf_iff_prefix]
    rw [List.isPrefixOf_iff_prefix] at h
    exact ⟨fun hm => hm.trans (List.take_prefix n s), fun hm => List.prefix_take_iff.2 ⟨hm, h hm⟩⟩

theorem next_take {b : UInt8} {rest : Bytes} {n : Nat} (h : (mode.next b rest).length ≤ n + 1) :
    mode.next b (rest.take n) = mode.next b rest := by
  unfold next at h ⊢
  rw [← List.take_succ_cons]
  split
  · rfl
  · next hexact =>
    split
    · rfl
    · next hupper =>
      rw [if_neg hexact, if_neg hupper] at h
      by_cases hk : mode.foldsKelvin && kelvinSign.isPrefixOf (b :: rest)
      · rw [if_pos hk] at h
        rw [and_isPrefixOf_take fun _ => h, if_pos hk, if_pos hk]
      · rw [if_neg hk] at h
        rw [and_isPrefixOf_take fun hp => absurd hp hk, if_neg hk, if_neg hk,
          and_isPrefixOf_take fun hp => by rwa [if_pos hp] at h]

theorem next_lf (t : Bytes) : mode.next Ascii.lf t = ⟨Ascii.lf, 1⟩ := by
  have hk : kelvinSign.isPrefixOf (Ascii.lf :: t) = false := rfl
  have hi : capitalIWithDot.isPrefixOf (Ascii.lf :: t) = false := rfl
  have hupper : Ascii.isUpper Ascii.lf = false := by decide
  unfold next
  simp only [hk, hi, hupper, Bool.and_false, Bool.false_eq_true, if_false, ite_self]

theorem next_append_lf (b : UInt8) (rest t : Bytes) :
    mode.next b (rest ++ Ascii.lf :: t) = mode.next b rest := by
  unfold next
  rw [← List.cons_append, isPrefixOf_append_lf _ _ (by decide),
    isPrefixOf_append_lf _ _ (by decide)]

/-! ## Folded texts -/

theorem foldInduction {motive : Bytes → Prop} (nil : motive [])
    (cons : ∀ b rest, motive (rest.drop ((mode.next b rest).length - 1)) → motive (b :: rest))
    (s : Bytes) : motive s := by
  induction s using fold.induct mode with
  | case1 => exact nil
  | case2 b rest f ih => exact cons b rest ih

variable {mode}

theorem fold_cons (b : UInt8) (rest : Bytes) :
    mode.fold (b :: rest) = (mode.next b rest).byte
      :: mode.fold (rest.drop ((mode.next b rest).length - 1)) := by
  rw [fold]

theorem fold_ne_nil {s : Bytes} (h : s ≠ []) : mode.fold s ≠ [] := by
  obtain ⟨b, rest, rfl⟩ := List.exists_cons_of_ne_nil h
  rw [fold_cons]
  exact List.cons_ne_nil _ _

theorem eq_lf_of_next {b : UInt8} {rest : Bytes} (h : (mode.next b rest).byte = Ascii.lf) :
    b = Ascii.lf := by
  unfold next at h
  split at h
  · exact h
  split at h
  · next hupper =>
    -- a small letter is above the line feed
    dsimp only at h
    rw [Ascii.toLower, if_pos hupper, ← UInt8.toNat_inj, UInt8.toNat_add] at h
    simp only [Ascii.isUpper, Bool.and_eq_true, decide_eq_true_eq, UInt8.le_iff_toNat_le] at hupper
    have hlf : Ascii.lf.toNat = 10 := rfl
    have hlow : (0x41 : UInt8).toNat = 65 := rfl
    have hhigh : (0x5A : UInt8).toNat = 90 := rfl
    have hstep : (0x20 : UInt8).toNat = 32 := rfl
    omega
  split at h
  · cases h
  split at h
  · cases h
  · exact h

theorem lf_mem_of_fold {s : Bytes} (h : Ascii.lf ∈ mode.fold s) : Ascii.lf ∈ s := by
  induction s using foldInduction mode with
  | nil => simp [fold] at h
  | cons b rest ih =>
    rw [fold_cons] at h
    obtain h | h := List.mem_cons.1 h
    · rw [eq_lf_of_next h.symm]; exact List.mem_cons_self
    · exact List.mem_cons_of_mem _ (List.mem_of_mem_drop (ih h))

theorem next_ascii (b : UInt8) (rest : Bytes) : ascii.next b rest = ⟨Ascii.toLower b, 1⟩ := by
  by_cases hupper : Ascii.isUpper b
  · simp [next, hupper]
  · simp [next, hupper, foldsKelvin, foldsDottedI, Ascii.toLower]

theorem fold_ascii (s : Bytes) : ascii.fold s = s.map Ascii.toLower := by
  induction s with
  | nil => simp [fold]
  | cons b rest ih =>
    rw [fold_cons, next_ascii, List.map_cons]
    exact congrArg (Ascii.toLower b :: ·) ih

theorem lt_of_toLower_lt {b : UInt8} (h : Ascii.toLower b < 0x80) : b < 0x80 := by
  by_cases hupper : Ascii.isUpper b
  · exact Ascii.lt_of_isLetter (by rw [Ascii.isLetter, hupper, Bool.true_or])
  · rwa [Ascii.toLower, if_neg hupper] at h

/-! ## Matches -/

/-- **A match covers a part of the text** that folds to what is wanted. -/
theorem matchLength?_eq_some {s start : Bytes} {n : Nat} (h : mode.matchLength? s start = some n) :
    n ≤ s.length ∧ mode.fold (s.take n) = start := by
  induction start generalizing s n with
  | nil =>
    rw [matchLength?] at h
    obtain rfl := Option.some.inj h
    simp [fold]
  | cons want wants ih =>
    cases s with
    | nil => simp [matchLength?] at h
    | cons b rest =>
      rw [matchLength?] at h
      split at h
      · next hbyte =>
        obtain ⟨k, hk, rfl⟩ := Option.map_eq_some_iff.1 h
        obtain ⟨hle, hfold⟩ := ih hk
        have hpos := next_length_pos mode b rest
        have hmax := next_length_le mode b rest
        rw [List.length_drop] at hle
        obtain ⟨m, hm⟩ := Nat.exists_eq_add_of_le' hpos
        have htake : m + 1 + k = (m + k) + 1 := by omega
        have hnext : mode.next b (rest.take (m + k)) = mode.next b rest :=
          next_take mode (by omega)
        rw [hm, Nat.add_sub_cancel] at hfold
        rw [hm, htake, List.take_succ_cons, fold_cons, hnext, hbyte, hm, Nat.add_sub_cancel,
          List.drop_take, Nat.add_sub_cancel_left, hfold, List.length_cons]
        exact ⟨by omega, rfl⟩
      · cases h

theorem matchLength?_fold (s : Bytes) : mode.matchLength? s (mode.fold s) = some s.length := by
  induction s using foldInduction mode with
  | nil => simp [fold, matchLength?]
  | cons b rest ih =>
    have hpos := next_length_pos mode b rest
    have hmax := next_length_le mode b rest
    rw [fold_cons, matchLength?]
    simp only [if_true, ih, Option.map_some, List.length_drop, List.length_cons]
    congr 1
    omega

theorem matchLength?_eq_length {s start : Bytes} :
    mode.matchLength? s start = some s.length ↔ mode.fold s = start := by
  constructor
  · intro h
    have hfold := (matchLength?_eq_some h).2
    rwa [List.take_length] at hfold
  · rintro rfl
    exact matchLength?_fold s

/-- **The number of bytes of a text** that its first `n` folded bytes stand for. -/
def sourceLength (mode : CaseFold) : (n : Nat) → Bytes → Nat
  | 0, _ => 0
  | _ + 1, [] => 0
  | n + 1, b :: rest =>
    let f := mode.next b rest
    f.length + sourceLength mode n (rest.drop (f.length - 1))

theorem sourceLength_ascii {n : Nat} {s : Bytes} (h : n ≤ s.length) :
    ascii.sourceLength n s = n := by
  induction n generalizing s with
  | zero => rfl
  | succ n ih =>
    cases s with
    | nil => cases h
    | cons b rest =>
      rw [sourceLength, next_ascii]
      dsimp only
      rw [Nat.sub_self, List.drop_zero, ih (Nat.le_of_succ_le_succ h), Nat.add_comm]

theorem fold_drop_sourceLength (n : Nat) (s : Bytes) :
    mode.fold (s.drop (mode.sourceLength n s)) = (mode.fold s).drop n := by
  induction n generalizing s with
  | zero => rfl
  | succ n ih =>
    cases s with
    | nil => simp [fold]
    | cons b rest =>
      obtain ⟨k, hk⟩ := Nat.exists_eq_add_of_le' (next_length_pos mode b rest)
      have hlength : mode.sourceLength (n + 1) (b :: rest)
          = k + mode.sourceLength n (rest.drop k) + 1 := by
        rw [sourceLength, hk, Nat.add_sub_cancel]
        omega
      rw [hlength, List.drop_succ_cons, ← List.drop_drop, ih, fold_cons, List.drop_succ_cons, hk,
        Nat.add_sub_cancel]

/-- **A text matches a start** when its folding begins that way, and the match covers the bytes that
are folded to it. -/
theorem matchLength?_eq_some_iff {s start : Bytes} {n : Nat} :
    mode.matchLength? s start = some n ↔
      start <+: mode.fold s ∧ n = mode.sourceLength start.length s := by
  induction start generalizing s n with
  | nil => simp [matchLength?, sourceLength, eq_comm]
  | cons want wants ih =>
    cases s with
    | nil => simp [matchLength?, fold]
    | cons b rest =>
      rw [matchLength?, fold_cons, List.cons_prefix_cons, List.length_cons, sourceLength]
      by_cases hbyte : (mode.next b rest).byte = want
      · rw [if_pos hbyte, Option.map_eq_some_iff]
        constructor
        · rintro ⟨k, hk, rfl⟩
          obtain ⟨hstart, rfl⟩ := ih.1 hk
          exact ⟨⟨hbyte.symm, hstart⟩, rfl⟩
        · rintro ⟨⟨-, hstart⟩, rfl⟩
          exact ⟨_, ih.2 ⟨hstart, rfl⟩, rfl⟩
      · simp [if_neg hbyte, Ne.symm hbyte]

theorem matchLength?_append_lf {start : Bytes} (h : Ascii.lf ∉ start) (s t : Bytes) :
    mode.matchLength? (s ++ Ascii.lf :: t) start = mode.matchLength? s start := by
  induction start generalizing s with
  | nil => simp [matchLength?]
  | cons want wants ih =>
    rw [List.mem_cons, not_or] at h
    cases s with
    | nil => simp [matchLength?, next_lf, h.1]
    | cons b rest =>
      have hmax := next_length_le mode b rest
      rw [List.cons_append, matchLength?, matchLength?, next_append_lf,
        List.drop_append_of_le_length (by omega), ih h.2]

/-! ## Folding twice -/

/-- **The byte `b` stands for itself** in front of `rest`: no rule of the mode folds it. -/
structure Plain (mode : CaseFold) (b : UInt8) (rest : Bytes) : Prop where
  capital : mode ≠ exact → Ascii.isUpper b = false
  kelvin : (mode.foldsKelvin && kelvinSign.isPrefixOf (b :: rest)) = false
  dottedI : (mode.foldsDottedI && capitalIWithDot.isPrefixOf (b :: rest)) = false

theorem Plain.next_eq {b : UInt8} {rest : Bytes} (h : mode.Plain b rest) :
    mode.next b rest = ⟨b, 1⟩ := by
  by_cases hmode : mode = exact
  · rw [next, if_pos hmode]
  · simp [next, hmode, h.capital hmode, h.kelvin, h.dottedI]

theorem isLower_toLower {b : UInt8} (h : Ascii.isUpper b) : Ascii.isLower (Ascii.toLower b) := by
  rw [Ascii.toLower, if_pos h]
  simp only [Ascii.isUpper, Bool.and_eq_true, decide_eq_true_eq, UInt8.le_iff_toNat_le,
    UInt8.reduceToNat] at h
  simp only [Ascii.isLower, Bool.and_eq_true, decide_eq_true_eq, UInt8.le_iff_toNat_le,
    UInt8.toNat_add, UInt8.reduceToNat]
  omega

theorem plain_or_isLower (mode : CaseFold) (b : UInt8) (rest : Bytes) :
    mode.Plain b rest ∨ Ascii.isLower (mode.next b rest).byte := by
  by_cases hmode : mode = exact
  · subst hmode
    exact .inl ⟨fun h => absurd rfl h, rfl, rfl⟩
  by_cases hupper : Ascii.isUpper b
  · rw [next, if_neg hmode, if_pos hupper]
    exact .inr (isLower_toLower hupper)
  by_cases hkelvin : mode.foldsKelvin && kelvinSign.isPrefixOf (b :: rest)
  · rw [next, if_neg hmode, if_neg hupper, if_pos hkelvin]
    exact .inr rfl
  by_cases hdotted : mode.foldsDottedI && capitalIWithDot.isPrefixOf (b :: rest)
  · rw [next, if_neg hmode, if_neg hupper, if_neg hkelvin, if_pos hdotted]
    exact .inr rfl
  · exact .inl ⟨fun _ => Bool.eq_false_iff.2 hupper, Bool.eq_false_iff.2 hkelvin,
      Bool.eq_false_iff.2 hdotted⟩

theorem plain_of_isLower {b : UInt8} (h : Ascii.isLower b) (rest : Bytes) : mode.Plain b rest := by
  simp only [Ascii.isLower, Bool.and_eq_true, decide_eq_true_eq, UInt8.le_iff_toNat_le,
    UInt8.reduceToNat] at h
  have hne : ∀ c : UInt8, 0x80 ≤ c.toNat → (c == b) = false := fun c hc =>
    beq_false_of_ne fun heq => by rw [heq] at hc; omega
  refine ⟨fun _ => ?_, ?_, ?_⟩
  · simp only [Ascii.isUpper, Bool.and_eq_false_iff, decide_eq_false_iff_not,
      UInt8.le_iff_toNat_le, UInt8.reduceToNat]
    omega
  · simp [kelvinSign, List.isPrefixOf, hne]
  · simp [capitalIWithDot, List.isPrefixOf, hne]

/-- **No letter outside ASCII is made by folding.** The bytes outside ASCII that a folded text
begins with are those that the text begins with. -/
theorem isPrefix_of_isPrefix_fold {marker s : Bytes} (hmarker : ∀ b ∈ marker, 0x80 ≤ b)
    (h : marker <+: mode.fold s) : marker <+: s := by
  induction marker generalizing s with
  | nil => exact List.nil_prefix
  | cons m marker ih =>
    obtain ⟨hm, htail⟩ := List.forall_mem_cons.1 hmarker
    cases s with
    | nil => simp [fold] at h
    | cons b rest =>
      rw [fold_cons, List.cons_prefix_cons] at h
      obtain ⟨rfl, h⟩ := h
      obtain hplain | hlower := plain_or_isLower mode b rest
      · rw [hplain.next_eq] at h ⊢
        exact (List.prefix_cons_inj b).2 (ih htail h)
      · have hlt := Ascii.lt_of_isLetter (by rw [Ascii.isLetter, hlower, Bool.or_true])
        exact absurd hm (UInt8.not_le.2 hlt)

theorem and_isPrefixOf_cons_fold {flag : Bool} {m b : UInt8} {marker rest : Bytes}
    (hmarker : ∀ c ∈ marker, 0x80 ≤ c)
    (h : (flag && (m :: marker).isPrefixOf (b :: rest)) = false) :
    (flag && (m :: marker).isPrefixOf (b :: mode.fold rest)) = false := by
  rw [Bool.and_eq_false_imp] at h ⊢
  intro hflag
  have hnot := h hflag
  rw [← Bool.not_eq_true, List.isPrefixOf_iff_prefix, List.cons_prefix_cons] at hnot ⊢
  exact fun ⟨hhead, htail⟩ => hnot ⟨hhead, isPrefix_of_isPrefix_fold hmarker htail⟩

/-- **A folded byte in front of a folded text** stands for itself. -/
theorem plain_next_fold (b : UInt8) (rest : Bytes) :
    mode.Plain (mode.next b rest).byte
      (mode.fold (rest.drop ((mode.next b rest).length - 1))) := by
  obtain hplain | hlower := plain_or_isLower mode b rest
  · rw [hplain.next_eq, Nat.sub_self, List.drop_zero]
    exact ⟨hplain.capital, and_isPrefixOf_cons_fold (by simp) hplain.kelvin,
      and_isPrefixOf_cons_fold (by simp) hplain.dottedI⟩
  · exact plain_of_isLower hlower _

/-- **Folding a folded text** changes nothing. -/
theorem fold_fold (s : Bytes) : mode.fold (mode.fold s) = mode.fold s := by
  induction s using foldInduction mode with
  | nil => simp [fold]
  | cons b rest ih =>
    rw [fold_cons, fold_cons, (plain_next_fold b rest).next_eq, Nat.sub_self, List.drop_zero, ih]

/-- **Folding twice is folding once**, and a match is found just where the folded text starts with
it. -/
theorem fold_fold_and_matchLength? (mode : CaseFold) (s start : Bytes) :
    mode.fold (mode.fold s) = mode.fold s ∧
      ((mode.matchLength? s start).isSome ↔ start <+: mode.fold s) ∧
      ∀ n, mode.matchLength? s start = some n →
        n ≤ s.length ∧ mode.fold (s.take n) = start ∧
          mode.fold s = start ++ mode.fold (s.drop n) := by
  refine ⟨fold_fold s, ?_, fun n hn => ?_⟩
  · rw [Option.isSome_iff_exists]
    exact ⟨fun ⟨n, hn⟩ => (matchLength?_eq_some_iff.1 hn).1,
      fun h => ⟨_, matchLength?_eq_some_iff.2 ⟨h, rfl⟩⟩⟩
  · obtain ⟨hle, htake⟩ := matchLength?_eq_some hn
    obtain ⟨hstart, rfl⟩ := matchLength?_eq_some_iff.1 hn
    refine ⟨hle, htake, ?_⟩
    rw [fold_drop_sourceLength, append_drop_length hstart]

end WhitespaceAsm.CaseFold

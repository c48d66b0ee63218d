import WhitespaceAsm.Text

/-!
# What a text shares with the source

Texts that compare equal go on comparing equal, whatever is done with both of them: who owns the
bytes does not show in them. A text that does not own its bytes has only been cut, so that it is
still a part of the source.

* `Text.Operation`, `Text.run`: what changes a text, and a text after some of it;
* `bytes_substring`: a slice; `owned_apply`, `bytes_apply_isInfix`: one operation;
* **`Text.run_shares`**: any number of operations.
-/

namespace WhitespaceAsm.Text

/-- **What changes a text.** -/
inductive Operation
  | substring (start : Nat) (length : Option Nat)
  | append (s : Bytes)
  | toOwned

/-- The text after an operation. A slice that starts behind the end is none, and the text stays. -/
def Operation.apply (t : Text) : Operation → Text
  | substring start length =>
    match t.substring start length with
    | .ok slice => slice
    | .error .startsPastEnd => t
  | append s => t.append s
  | toOwned => t.toOwned

def Operation.makesOwned : Operation → Bool
  | substring _ _ => false
  | append _ | toOwned => true

/-- **A text after some operations.** -/
def run (t : Text) (ops : List Operation) : Text := ops.foldl Operation.apply t

theorem beq_iff {t u : Text} : t == u ↔ t.bytes = u.bytes := beq_iff_eq (α := Bytes)

theorem bytes_substring {t slice : Text} {start : Nat} {length : Option Nat}
    (h : t.substring start length = .ok slice) : start ≤ t.bytes.length ∧ slice.owned = t.owned ∧
      slice.bytes = (t.bytes.drop start).take (length.getD t.bytes.length) := by
  unfold substring at h
  split at h
  · cases h
  · next hstart =>
    cases h
    refine ⟨Nat.not_lt.1 hstart, rfl, ?_⟩
    cases length with
    | none =>
      have hle : (t.bytes.drop start).length ≤ t.bytes.length := by
        rw [List.length_drop]
        exact Nat.sub_le _ _
      exact (List.take_of_length_le hle).symm
    | some n => rfl

/-! ## One operation -/

/-- **The bytes after an operation** depend on those before alone. -/
theorem bytes_apply_congr {t u : Text} (h : t.bytes = u.bytes) (op : Operation) :
    (op.apply t).bytes = (op.apply u).bytes := by
  cases op with
  | substring start length =>
    dsimp only [Operation.apply]
    unfold substring
    rw [h]
    by_cases hstart : u.bytes.length < start
    · rw [if_pos hstart, if_pos hstart]
      exact h
    · rw [if_neg hstart, if_neg hstart]
  | append s => exact congrArg (· ++ s) h
  | toOwned => exact h

theorem owned_apply (t : Text) (op : Operation) :
    (op.apply t).owned = (t.owned || op.makesOwned) := by
  cases op with
  | substring start length =>
    dsimp only [Operation.apply]
    rw [Operation.makesOwned, Bool.or_false]
    split
    · next slice h => exact (bytes_substring h).2.1
    · rfl
  | append s => exact (Bool.or_true _).symm
  | toOwned => exact (Bool.or_true _).symm

theorem bytes_apply_isInfix (t : Text) {op : Operation} (h : op.makesOwned = false) :
    (op.apply t).bytes <:+: t.bytes := by
  cases op with
  | substring start length =>
    dsimp only [Operation.apply]
    split
    · next slice hslice =>
      rw [(bytes_substring hslice).2.2]
      exact (List.take_prefix _ _).isInfix.trans (List.drop_suffix _ _).isInfix
    · exact List.infix_rfl
  | append s => cases h
  | toOwned => cases h

/-! ## Any number of operations -/

/-- **Ownership does not show, and what is not owned is a part of the source**, after any
operations. -/
theorem run_shares (t : Text) (ops : List Operation) :
    (∀ u, t == u → t.run ops == u.run ops) ∧
    (t.run ops).owned = (t.owned || ops.any Operation.makesOwned) ∧
    ((t.run ops).owned = false → (t.run ops).bytes <:+: t.bytes) := by
  induction ops generalizing t with
  | nil => exact ⟨fun _ h => h, (Bool.or_false _).symm, fun _ => List.infix_rfl⟩
  | cons op ops ih =>
    obtain ⟨hequal, howned, hpart⟩ := ih (op.apply t)
    have hrun : t.run (op :: ops) = (op.apply t).run ops := rfl
    rw [hrun]
    refine ⟨fun u hu => ?_, ?_, fun hnot => ?_⟩
    · exact hequal (op.apply u) (beq_iff.2 (bytes_apply_congr (beq_iff.1 hu) op))
    · rw [howned, owned_apply, List.any_cons, Bool.or_assoc]
    · have hop : op.makesOwned = false := by
        rw [howned, owned_apply] at hnot
        exact (Bool.or_eq_false_iff.1 (Bool.or_eq_false_iff.1 hnot).1).2
      exact (hpart hnot).trans (bytes_apply_isInfix t hop)

end WhitespaceAsm.Text

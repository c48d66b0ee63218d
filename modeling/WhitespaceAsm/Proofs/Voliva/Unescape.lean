import WhitespaceAsm.Proofs.Utf8.Encode
import WhitespaceAsm.Voliva.Lex

/-!
# Escapes of voliva literals

The value of a literal is read character by character. A character other than a backslash stands for
itself, and a backslash takes the next character along.

* `unescape_encode`, `unescape_backslash`, `unescape_escaped`, `unescape_unknown`: one character;
* **`value_unescape_eq_nil_iff`**: only the empty literal has an empty value.
-/

namespace WhitespaceAsm.Voliva

variable {quote : UInt8}

theorem unescape_nil : unescape quote [] = {} := by rw [unescape]

theorem unescape_encode {c : Nat} (hc : c.isValidChar) (hne : c ≠ 0x5C) (t : Bytes) :
    unescape quote (Utf8.encode c ++ t) = (unescape quote t).afterChar c := by
  obtain ⟨b, rest, hcons, hdecode, hdrop⟩ := Utf8.exists_cons_encode hc t
  rw [hcons, unescape.eq_def]
  simp [hdecode, hne, hdrop]

theorem decode_backslash (t : Bytes) :
    Utf8.decode (Ascii.backslash :: t) = ⟨0x5C, 1, true⟩ :=
  Utf8.decode_of_lt (by decide) t

theorem unescape_backslash :
    unescape quote [Ascii.backslash] = { value := [Ascii.backslash], invalidEscape := true } := by
  rw [unescape.eq_def]
  simp [decode_backslash]

section Escape

variable {d : Nat} (hd : d.isValidChar) (t : Bytes)

include hd

theorem unescape_escaped {c : Nat} (hescape : escaped? quote d = some c) :
    unescape quote (Ascii.backslash :: (Utf8.encode d ++ t)) = (unescape quote t).afterChar c := by
  obtain ⟨b, rest, hcons, hdecode, hdrop⟩ := Utf8.exists_cons_encode hd t
  rw [hcons, unescape.eq_def]
  simp [decode_backslash, hdecode, hdrop, hescape]

theorem unescape_unknown (hescape : escaped? quote d = none) :
    unescape quote (Ascii.backslash :: (Utf8.encode d ++ t))
      = ((unescape quote t).afterChar d).afterBadEscape := by
  obtain ⟨b, rest, hcons, hdecode, hdrop⟩ := Utf8.exists_cons_encode hd t
  rw [hcons, unescape.eq_def]
  simp [decode_backslash, hdecode, hdrop, hescape]

end Escape

/-- **Only the empty literal has an empty value.** -/
theorem value_unescape_eq_nil_iff (s : Bytes) : (unescape quote s).value = [] ↔ s = [] := by
  have hafter : ∀ (c : Nat) (u : Unescaped), (u.afterChar c).value ≠ [] := fun c u =>
    List.append_ne_nil_of_left_ne_nil (Utf8.encode_ne_nil c) _
  refine ⟨fun h => ?_, fun h => by rw [h, unescape_nil]⟩
  revert h
  fun_cases unescape quote s with
  | case1 => exact fun _ => rfl
  | case2 => exact fun h => absurd h (hafter _ _)
  | case3 => exact fun h => absurd h (hafter _ _)
  | case4 => exact fun h => absurd h (List.cons_ne_nil _ _)
  | case5 => exact fun h => absurd h (hafter _ _)
  | case6 => exact fun h => absurd h (hafter _ _)
  | case7 => exact fun h => absurd h (hafter _ _)

end WhitespaceAsm.Voliva

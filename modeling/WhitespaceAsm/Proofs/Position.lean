import Mathlib.Data.List.DropRight
import Mathlib.Data.List.Induction
import WhitespaceAsm.Position

/-!
# Lines and columns along a text

A position goes over a text byte by byte. What it reaches depends on the text alone: the line counts
the line feeds before it, and the column the bytes since the last of them that have a column of
their own.

* `lastLine`, **`Pos.advance_eq`**: the position after a text in closed form; `Pos.ofOffset`,
  `Pos.advance_take`: the position of an offset;
* `ColumnUnit.uncounted`, **`Pos.advance_byte_eq`**: what columns of bytes add to other columns.
-/

namespace WhitespaceAsm

/-- **The line that a text ends in**, as far as the text goes. -/
def lastLine (s : Bytes) : Bytes := s.rtakeWhile (· != Ascii.lf)

theorem lastLine_concat (s : Bytes) (b : UInt8) :
    lastLine (s ++ [b]) = if b = Ascii.lf then [] else lastLine s ++ [b] := by
  rw [lastLine, List.rtakeWhile_concat, lastLine]
  by_cases hlf : b = Ascii.lf <;> simp [hlf]

/-- How many bytes of its last line have no column of their own. -/
def ColumnUnit.uncounted (u : ColumnUnit) (s : Bytes) : Nat := (lastLine s).countP (!u.counts ·)

theorem ColumnUnit.uncounted_byte (s : Bytes) : byte.uncounted s = 0 := by
  simp [uncounted, counts]

namespace Pos

theorem advance_append (u : ColumnUnit) (p : Pos) (s t : Bytes) :
    p.advance u (s ++ t) = (p.advance u s).advance u t := List.foldl_append

theorem offset_step (u : ColumnUnit) (p : Pos) (b : UInt8) :
    (p.step u b).offset = p.offset + 1 := by
  unfold step
  split
  · rfl
  · split
    · rfl
    · rfl

theorem offset_advance (u : ColumnUnit) (p : Pos) (s : Bytes) :
    (p.advance u s).offset = p.offset + s.length := by
  induction s generalizing p with
  | nil => rfl
  | cons b s ih =>
    have hstep : p.advance u (b :: s) = (p.step u b).advance u s := rfl
    rw [hstep, ih, offset_step, List.length_cons]
    omega

/-- **The position after a text**, by induction from its end. -/
theorem advance_eq (u : ColumnUnit) (s : Bytes) : advance u {} s = {
    offset := s.length
    line := s.count Ascii.lf + 1
    column := (lastLine s).countP u.counts + 1 } := by
  induction s using List.reverseRecOn with
  | nil => simp [advance, lastLine]
  | append_singleton s b ih =>
    have hstep : advance u {} (s ++ [b]) = (advance u {} s).step u b := advance_append u _ s [b]
    rw [hstep, ih, step, lastLine_concat]
    by_cases hlf : b = Ascii.lf
    · simp [hlf]
    · by_cases hcounts : u.counts b
      · simp [hlf, hcounts]
      · simp [hlf, hcounts]

/-- **The position of an offset.** The line counts the line feeds before it, and the column what
counts since the last of them. -/
def ofOffset (u : ColumnUnit) (src : Bytes) (offset : Nat) : Pos :=
  let seen := src.take offset
  { offset, line := seen.count Ascii.lf + 1, column := (lastLine seen).countP u.counts + 1 }

theorem advance_take {u : ColumnUnit} {src : Bytes} {offset : Nat} (h : offset ≤ src.length) :
    advance u {} (src.take offset) = ofOffset u src offset := by
  rw [advance_eq, List.length_take_of_le h]
  rfl

/-- **A column of bytes** is the column in another unit and what does not count there. -/
theorem advance_byte_eq (u : ColumnUnit) (s : Bytes) : advance .byte {} s
    = { advance u {} s with column := (advance u {} s).column + u.uncounted s } := by
  have hlength := List.length_eq_countP_add_countP u.counts (l := lastLine s)
  have hbytes : (lastLine s).countP ColumnUnit.byte.counts = (lastLine s).length :=
    List.countP_eq_length.2 fun _ _ => rfl
  rw [advance_eq, advance_eq, hbytes, hlength, ColumnUnit.uncounted]
  simp only [decide_not, Bool.decide_eq_true]
  rw [Nat.add_right_comm]

end Pos

end WhitespaceAsm

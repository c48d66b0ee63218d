import WhitespaceAsm.Utf8

/-!
# Source positions

* `Pos`: a byte offset with its line and column; positions compare by offset alone;
* `ColumnUnit`: whether columns count bytes or code points;
* **`Pos.advance`**: the position after some bytes.
-/

namespace WhitespaceAsm

/-- What a column counts. -/
inductive ColumnUnit
  /-- Every byte. -/
  | byte
  /-- Every byte that does not continue a UTF-8 sequence. -/
  | codePoint
deriving DecidableEq, Repr

/-- The byte takes a column of its own. -/
def ColumnUnit.counts (u : ColumnUnit) (b : UInt8) : Bool :=
  match u with
  | .byte => true
  | .codePoint => !Utf8.isContinuation b

/-- **A position in a program text.** Lines and columns count from one. -/
structure Pos where
  offset : Nat := 0
  line : Nat := 1
  column : Nat := 1
deriving Repr, Inhabited

namespace Pos

instance : BEq Pos := ⟨fun a b => a.offset == b.offset⟩

instance : LT Pos := ⟨fun a b => a.offset < b.offset⟩

instance (a b : Pos) : Decidable (a < b) := inferInstanceAs (Decidable (a.offset < b.offset))

/-- The position after one byte. -/
def step (u : ColumnUnit) (p : Pos) (b : UInt8) : Pos :=
  if b = Ascii.lf then ⟨p.offset + 1, p.line + 1, 1⟩
  else if u.counts b then ⟨p.offset + 1, p.line, p.column + 1⟩
  else ⟨p.offset + 1, p.line, p.column⟩

/-- **The position after some bytes.** -/
def advance (u : ColumnUnit) (p : Pos) (s : Bytes) : Pos := s.foldl (step u) p

end Pos

end WhitespaceAsm

import WhitespaceAsm.Bytes

/-!
# UTF-8

Decoding is strict: no surrogates, no overlong forms, nothing above U+10FFFF. Ill-formed input is
read in maximal subparts, the units that a replacement character stands for: a lead byte with the
continuation bytes that could still belong to it, or a single byte that can lead nothing.

* `Utf8.Unit`, **`Utf8.decode`**, `Utf8.decodeLast`: the unit at the start or the end of a string;
* `Utf8.units`: a string cut into units; `Utf8.validLength`, `Utf8.isValid`: its well-formed start;
* `Utf8.encode`: the bytes of a code point;
* `Utf8.takeUnits`, `Utf8.takeChars`, `Utf8.trimEnd`: runs of units at the start, and of characters
  of a class at the start or the end.
-/

namespace WhitespaceAsm.Utf8

abbrev replacement : Nat := 0xFFFD

/-- **What stands at one place of a byte string**: a code point, or an ill-formed unit. -/
structure Unit where
  /-- The code point, or the replacement character for an ill-formed unit. -/
  codePoint : Nat
  /-- The number of bytes of the unit. -/
  length : Nat
  /-- The unit is one well-formed code point. -/
  valid : Bool
deriving DecidableEq, Repr

def Unit.illFormed (length : Nat) : Unit := ⟨replacement, length, false⟩

/-- What a lead byte announces: its own bits of the code point, how many bytes follow it, and the
range of the first of them. -/
structure Lead where
  payload : Nat
  trailing : Nat
  low : UInt8 := 0x80
  high : UInt8 := 0xBF

/-- Reads a lead byte of a sequence of two to four bytes. The ranges exclude the overlong forms
after E0 and F0, the surrogates after ED and what lies above U+10FFFF after F4. -/
def Lead.ofByte? (b : UInt8) : Option Lead :=
  if 0xC2 ≤ b ∧ b ≤ 0xDF then
    some { payload := b.toNat - 0xC0, trailing := 1 }
  else if 0xE0 ≤ b ∧ b ≤ 0xEF then
    some { payload := b.toNat - 0xE0, trailing := 2,
           low := if b = 0xE0 then 0xA0 else 0x80, high := if b = 0xED then 0x9F else 0xBF }
  else if 0xF0 ≤ b ∧ b ≤ 0xF4 then
    some { payload := b.toNat - 0xF0, trailing := 3,
           low := if b = 0xF0 then 0x90 else 0x80, high := if b = 0xF4 then 0x8F else 0xBF }
  else
    none

def isContinuation (b : UInt8) : Bool := 0x80 ≤ b && b ≤ 0xBF

/-- Reads the bytes after a lead byte: `missing` bytes are still to come, the next of them between
`low` and `high`; `length` bytes have been read and give `codePoint` so far. -/
def follow (low high : UInt8) : (missing codePoint length : Nat) → Bytes → Unit
  | 0, codePoint, length, _ => ⟨codePoint, length, true⟩
  | _ + 1, _, length, [] => .illFormed length
  | missing + 1, codePoint, length, b :: rest =>
    if low ≤ b ∧ b ≤ high then
      follow 0x80 0xBF missing (codePoint * 64 + b.toNat % 64) (length + 1) rest
    else
      .illFormed length

/-- **The unit at the start of a byte string.** The empty string has an ill-formed unit of length
zero. -/
def decode : Bytes → Unit
  | [] => .illFormed 0
  | b :: rest =>
    if b < 0x80 then ⟨b.toNat, 1, true⟩
    else match Lead.ofByte? b with
      | none => .illFormed 1
      | some lead => follow lead.low lead.high lead.trailing lead.payload 1 rest

/-- The last bytes of a string, back to the byte that up to three continuation bytes at its end
continue: where the last code point must begin. -/
def lastSequence (s : Bytes) : Bytes :=
  s.drop (s.length - (min 3 (s.reverse.takeWhile isContinuation).length + 1))

/-- **The unit at the end of a byte string**: the code point whose encoding ends there, and
otherwise an ill-formed unit of a single byte. -/
def decodeLast (s : Bytes) : Unit :=
  if s.isEmpty then .illFormed 0
  else
    let tail := lastSequence s
    let c := decode tail
    if c.valid && c.length == tail.length then c else .illFormed 1

/-- A byte string cut into units, first to last. -/
def units : Bytes → List Unit
  | [] => []
  | b :: rest =>
    let c := decode (b :: rest)
    c :: units (rest.drop (c.length - 1))
termination_by s => s.length
decreasing_by simp only [List.length_drop, List.length_cons]; omega

/-- **The length of the longest well-formed start of a byte string.** -/
def validLength : Bytes → Nat
  | [] => 0
  | b :: rest =>
    let c := decode (b :: rest)
    if c.valid then c.length + validLength (rest.drop (c.length - 1)) else 0
termination_by s => s.length
decreasing_by simp only [List.length_drop, List.length_cons]; omega

def isValid (s : Bytes) : Bool := validLength s == s.length

/-- **The encoding of a code point.** Surrogates are encoded like any other value. -/
def encode (c : Nat) : Bytes :=
  if c < 0x80 then [UInt8.ofNat c]
  else if c < 0x800 then [UInt8.ofNat (0xC0 + c / 0x40), UInt8.ofNat (0x80 + c % 0x40)]
  else if c < 0x10000 then
    [UInt8.ofNat (0xE0 + c / 0x1000), UInt8.ofNat (0x80 + c / 0x40 % 0x40),
      UInt8.ofNat (0x80 + c % 0x40)]
  else
    [UInt8.ofNat (0xF0 ||| c / 0x40000), UInt8.ofNat (0x80 + c / 0x1000 % 0x40),
      UInt8.ofNat (0x80 + c / 0x40 % 0x40), UInt8.ofNat (0x80 + c % 0x40)]

/-- The longest start of a byte string made of units that satisfy a condition. -/
def takeUnits (p : Unit → Bool) : Bytes → Bytes
  | [] => []
  | b :: rest =>
    let c := decode (b :: rest)
    if p c then (b :: rest).take c.length ++ takeUnits p (rest.drop (c.length - 1)) else []
termination_by s => s.length
decreasing_by simp only [List.length_drop, List.length_cons]; omega

/-- The longest start of a byte string made of well-formed characters of a class. -/
def takeChars (p : Nat → Bool) (s : Bytes) : Bytes :=
  takeUnits (fun c => c.valid && p c.codePoint) s

/-- A byte string without the characters of a class at its end. -/
def trimEnd (p : Nat → Bool) (s : Bytes) : Bytes :=
  let c := decodeLast s
  if _h : s ≠ [] ∧ c.valid ∧ p c.codePoint then
    trimEnd p (s.take (s.length - max 1 c.length))
  else
    s
termination_by s.length
decreasing_by
  have : 0 < s.length := List.length_pos_iff.2 _h.1
  simp only [List.length_take]; omega

end WhitespaceAsm.Utf8

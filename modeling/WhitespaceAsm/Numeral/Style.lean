import WhitespaceAsm.Bytes
import WhitespaceAsm.FlagSet

/-!
# Radices, signs and base styles of numerals

A base style says how a numeral shows its radix: by a prefix or a suffix, in either case, or not at
all in decimal.

* `Numeral.Radix`, `Numeral.Radix.digit?`, `Numeral.Radix.digits`, `Numeral.Radix.ofDigits?`;
* `Numeral.Sign`;
* `Numeral.BaseStyle` with its markers; **`Numeral.BaseStyle.nearest`**: the style of a set that
  stands in for one that is not in it.
-/

namespace WhitespaceAsm.Numeral

/-! ## Radices -/

/-- **The radix of a numeral.** -/
inductive Radix
  | binary | octal | decimal | hexadecimal
deriving DecidableEq, Repr

namespace Radix

/-- The number of digits of the radix. -/
def toNat : Radix → Nat
  | binary => 2
  | octal => 8
  | decimal => 10
  | hexadecimal => 16

theorem two_le_toNat (r : Radix) : 2 ≤ r.toNat := by cases r <;> decide

/-- The value of a digit of the radix, in either case. -/
def digit? (r : Radix) (b : UInt8) : Option Nat :=
  let value :=
    if Ascii.isDigit b then some (b.toNat - 0x30)
    else if 0x61 ≤ b ∧ b ≤ 0x66 then some (b.toNat - 0x61 + 10)
    else if 0x41 ≤ b ∧ b ≤ 0x46 then some (b.toNat - 0x41 + 10)
    else none
  value.filter (· < r.toNat)

/-- The digit of a value below sixteen, in lower case. -/
def digitByte (value : Nat) : UInt8 :=
  if value < 10 then UInt8.ofNat (0x30 + value) else UInt8.ofNat (0x61 + (value - 10))

/-- **The digits of a number**, most significant first, without leading zeros. -/
def digits (r : Radix) (n : Nat) : Bytes :=
  if n < r.toNat then [digitByte n] else r.digits (n / r.toNat) ++ [digitByte (n % r.toNat)]
termination_by n
decreasing_by
  have := r.two_le_toNat
  exact Nat.div_lt_self (by omega) (by omega)

/-- **The number that a string of digits denotes**, unless a byte is not a digit of the radix. -/
def ofDigits? (r : Radix) (ds : Bytes) : Option Nat :=
  ds.foldlM (fun n b => (r.digit? b).map (n * r.toNat + ·)) 0

end Radix

/-! ## Signs -/

/-- **The sign of a numeral as it is written.** -/
inductive Sign
  /-- No sign. -/
  | none
  | plus
  | minus
deriving DecidableEq, Repr, Inhabited

namespace Sign

def name : Sign → String
  | none => "None"
  | plus => "Pos"
  | minus => "Neg"

/-- The text of a sign. -/
def text : Sign → Bytes
  | none => []
  | plus => [Ascii.plus]
  | minus => [Ascii.minus]

end Sign

/-! ## Base styles -/

/-- **How a numeral shows its radix.** -/
inductive BaseStyle
  /-- Nothing but decimal digits. -/
  | decimal
  /-- The prefix `0b`. -/
  | binPrefixLower
  /-- The prefix `0B`. -/
  | binPrefixUpper
  /-- The suffix `b`. -/
  | binSuffixLower
  /-- The suffix `B`. -/
  | binSuffixUpper
  /-- The prefix `0o`. -/
  | octPrefixLower
  /-- The prefix `0O`. -/
  | octPrefixUpper
  /-- The prefix `0`. -/
  | octPrefixZero
  /-- The suffix `o`. -/
  | octSuffixLower
  /-- The suffix `O`. -/
  | octSuffixUpper
  /-- The prefix `0x`. -/
  | hexPrefixLower
  /-- The prefix `0X`. -/
  | hexPrefixUpper
  /-- The suffix `h`. -/
  | hexSuffixLower
  /-- The suffix `H`. -/
  | hexSuffixUpper
deriving DecidableEq, Repr, Inhabited

namespace BaseStyle

/-- Every style, in order. -/
def all : List BaseStyle :=
  [.decimal, .binPrefixLower, .binPrefixUpper, .binSuffixLower, .binSuffixUpper, .octPrefixLower,
   .octPrefixUpper, .octPrefixZero, .octSuffixLower, .octSuffixUpper, .hexPrefixLower,
   .hexPrefixUpper, .hexSuffixLower, .hexSuffixUpper]

instance : Flag BaseStyle where
  all := all
  bit s := s.ctorIdx

def name : BaseStyle → String
  | decimal => "Decimal"
  | binPrefixLower => "BinPrefix_0b"
  | binPrefixUpper => "BinPrefix_0B"
  | binSuffixLower => "BinSuffix_b"
  | binSuffixUpper => "BinSuffix_B"
  | octPrefixLower => "OctPrefix_0o"
  | octPrefixUpper => "OctPrefix_0O"
  | octPrefixZero => "OctPrefix_0"
  | octSuffixLower => "OctSuffix_o"
  | octSuffixUpper => "OctSuffix_O"
  | hexPrefixLower => "HexPrefix_0x"
  | hexPrefixUpper => "HexPrefix_0X"
  | hexSuffixLower => "HexSuffix_h"
  | hexSuffixUpper => "HexSuffix_H"

/-- What is written before the digits. -/
def before : BaseStyle → Bytes
  | binPrefixLower => ascii "0b"
  | binPrefixUpper => ascii "0B"
  | octPrefixLower => ascii "0o"
  | octPrefixUpper => ascii "0O"
  | octPrefixZero => ascii "0"
  | hexPrefixLower => ascii "0x"
  | hexPrefixUpper => ascii "0X"
  | _ => []

/-- What is written after the digits. -/
def after : BaseStyle → Bytes
  | binSuffixLower => ascii "b"
  | binSuffixUpper => ascii "B"
  | octSuffixLower => ascii "o"
  | octSuffixUpper => ascii "O"
  | hexSuffixLower => ascii "h"
  | hexSuffixUpper => ascii "H"
  | _ => []

/-- The radix of a style. -/
def radix : BaseStyle → Radix
  | decimal => .decimal
  | binPrefixLower | binPrefixUpper | binSuffixLower | binSuffixUpper => .binary
  | octPrefixLower | octPrefixUpper | octPrefixZero | octSuffixLower | octSuffixUpper => .octal
  | hexPrefixLower | hexPrefixUpper | hexSuffixLower | hexSuffixUpper => .hexadecimal

/-- The styles with a prefix. -/
def prefixed : FlagSet BaseStyle :=
  {.binPrefixLower, .binPrefixUpper, .octPrefixLower, .octPrefixUpper, .octPrefixZero,
   .hexPrefixLower, .hexPrefixUpper}

/-- The styles with a suffix. -/
def suffixed : FlagSet BaseStyle :=
  {.binSuffixLower, .binSuffixUpper, .octSuffixLower, .octSuffixUpper, .hexSuffixLower,
   .hexSuffixUpper}

/-- The styles of a radix. -/
def ofRadix : Radix → FlagSet BaseStyle
  | .binary => {.binPrefixLower, .binPrefixUpper, .binSuffixLower, .binSuffixUpper}
  | .octal =>
    {.octPrefixLower, .octPrefixUpper, .octPrefixZero, .octSuffixLower, .octSuffixUpper}
  | .decimal => {.decimal}
  | .hexadecimal => {.hexPrefixLower, .hexPrefixUpper, .hexSuffixLower, .hexSuffixUpper}

/-- The style has a suffix for hexadecimal. -/
def isHexSuffix : BaseStyle → Bool
  | hexSuffixLower | hexSuffixUpper => true
  | _ => false

/-- The same style with its letter in lower case. -/
def toLower : BaseStyle → BaseStyle
  | binPrefixUpper => binPrefixLower
  | binSuffixUpper => binSuffixLower
  | octPrefixUpper => octPrefixLower
  | octSuffixUpper => octSuffixLower
  | hexPrefixUpper => hexPrefixLower
  | hexSuffixUpper => hexSuffixLower
  | style => style

/-- The same style with its letter in upper case. -/
def toUpper : BaseStyle → BaseStyle
  | binPrefixLower => binPrefixUpper
  | binSuffixLower => binSuffixUpper
  | octPrefixLower => octPrefixUpper
  | octSuffixLower => octSuffixUpper
  | hexPrefixLower => hexPrefixUpper
  | hexSuffixLower => hexSuffixUpper
  | style => style

/-- The style with a prefix in the place of a suffix. -/
def toPrefixed : BaseStyle → BaseStyle
  | binSuffixLower => binPrefixLower
  | binSuffixUpper => binPrefixUpper
  | octSuffixLower => octPrefixLower
  | octSuffixUpper => octPrefixUpper
  | hexSuffixLower => hexPrefixLower
  | hexSuffixUpper => hexPrefixUpper
  | style => style

/-- The style with a suffix in the place of a prefix. -/
def toSuffixed : BaseStyle → BaseStyle
  | binPrefixLower => binSuffixLower
  | binPrefixUpper => binSuffixUpper
  | octPrefixLower | octPrefixZero => octSuffixLower
  | octPrefixUpper => octSuffixUpper
  | hexPrefixLower => hexSuffixLower
  | hexPrefixUpper => hexSuffixUpper
  | style => style

/-- **The style of a set that is nearest to a style**: itself, its variants in case and place, then
the first style of its radix, and then of hexadecimal, decimal, binary and octal. With an empty set
it is the style itself. -/
def nearest (style : BaseStyle) (styles : FlagSet BaseStyle) : BaseStyle :=
  if styles.isEmpty ∨ style ∈ styles then style
  else
    let variants := [style.toLower, style.toUpper, style.toPrefixed, style.toSuffixed]
    let radices := [style.radix, .hexadecimal, .decimal, .binary, .octal]
    match variants.find? (· ∈ styles) with
    | some variant => variant
    | none => (radices.findSome? fun r => (ofRadix r ∩ styles).first?).getD style

end BaseStyle

end WhitespaceAsm.Numeral

/-!
# Byte strings

Program text is a list of bytes in any encoding; every rule of the library is stated on such lists.

* `Bytes`, `ascii`, `decimal`, `hexadecimal`: byte strings, made of ASCII text and of numbers;
* `Ascii`: the bytes that the dialects give a meaning to, and the ASCII character classes;
* **`takeUntil`**: the bytes before the first place where a condition on the remaining input holds;
* `takeLine`, `takeUntilZero`: the part of a byte string before a line feed or a zero byte.
-/

namespace WhitespaceAsm

/-- **A byte string**: program text, token text and everything the library prints. -/
abbrev Bytes := List UInt8

def ascii (s : String) : Bytes := s.toList.map fun c => UInt8.ofNat c.toNat

def decimal (n : Nat) : Bytes := (Nat.toDigits 10 n).map fun c => UInt8.ofNat c.toNat

/-- An integer in decimal, with a minus sign when it is negative. -/
def signedDecimal (i : Int) : Bytes :=
  if i < 0 then 0x2D :: decimal i.natAbs else decimal i.natAbs

/-- A number in lower-case hexadecimal, padded with zeros to at least `width` digits. -/
def hexadecimal (width n : Nat) : Bytes :=
  let digits := (Nat.toDigits 16 n).map fun c => UInt8.ofNat c.toNat
  List.replicate (width - digits.length) 0x30 ++ digits

namespace Ascii

abbrev tab : UInt8 := 0x09
abbrev lf : UInt8 := 0x0A
abbrev verticalTab : UInt8 := 0x0B
abbrev formFeed : UInt8 := 0x0C
abbrev cr : UInt8 := 0x0D
abbrev space : UInt8 := 0x20
abbrev doubleQuote : UInt8 := 0x22
abbrev hash : UInt8 := 0x23
abbrev percent : UInt8 := 0x25
abbrev singleQuote : UInt8 := 0x27
abbrev leftParen : UInt8 := 0x28
abbrev rightParen : UInt8 := 0x29
abbrev plus : UInt8 := 0x2B
abbrev comma : UInt8 := 0x2C
abbrev minus : UInt8 := 0x2D
abbrev dot : UInt8 := 0x2E
abbrev slash : UInt8 := 0x2F
abbrev zero : UInt8 := 0x30
abbrev colon : UInt8 := 0x3A
abbrev semicolon : UInt8 := 0x3B
abbrev atSign : UInt8 := 0x40
abbrev backslash : UInt8 := 0x5C
abbrev underscore : UInt8 := 0x5F
abbrev leftBrace : UInt8 := 0x7B
abbrev rightBrace : UInt8 := 0x7D

def isDigit (b : UInt8) : Bool := 0x30 ≤ b && b ≤ 0x39

def isUpper (b : UInt8) : Bool := 0x41 ≤ b && b ≤ 0x5A

def isLower (b : UInt8) : Bool := 0x61 ≤ b && b ≤ 0x7A

def isLetter (b : UInt8) : Bool := isUpper b || isLower b

def isHexDigit (b : UInt8) : Bool :=
  isDigit b || (0x41 ≤ b && b ≤ 0x46) || (0x61 ≤ b && b ≤ 0x66)

def isIdentifier (b : UInt8) : Bool := isLetter b || isDigit b || b == underscore

/-- A small letter becomes capital and every other byte stays. -/
def toUpper (b : UInt8) : UInt8 := if isLower b then b - 0x20 else b

/-- A capital letter becomes small and every other byte stays. -/
def toLower (b : UInt8) : UInt8 := if isUpper b then b + 0x20 else b

end Ascii

/-- **The bytes before the first place where `stop` holds of the remaining input.** -/
def takeUntil (stop : Bytes → Bool) : Bytes → Bytes
  | [] => []
  | b :: rest => if stop (b :: rest) then [] else b :: takeUntil stop rest

/-- The bytes before the first line feed. -/
def takeLine (s : Bytes) : Bytes := s.takeWhile (· != Ascii.lf)

/-- The bytes before the first zero byte. An error message quotes a name only so far, because a zero
byte ends a message. -/
def takeUntilZero (s : Bytes) : Bytes := s.takeWhile (· != 0)

end WhitespaceAsm

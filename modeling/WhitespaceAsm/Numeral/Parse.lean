import WhitespaceAsm.Numeral.Layout

/-!
# Reading numerals

A numeral keeps its literal text, the value and everything that is needed to write it again.
Whatever is wrong with it is noted in flags, and the other fields are then the best reading of it.

* `Numeral`: a numeral that has been read;
* `Numeral.DigitRun`: the digits that count, up to the first bad one;
* **`Numeral.parse?`**, `Numeral.parse`: reading under a grammar.
-/

namespace WhitespaceAsm

/-- **A numeral.** -/
structure Numeral where
  /-- The text with sign and markers. -/
  literal : Bytes := []
  value : Int := 0
  /-- The sign as it is written, with the signs of a Haskell numeral taken together. -/
  sign : Numeral.Sign := .none
  style : Numeral.BaseStyle := .decimal
  /-- The number of zeros before the first other digit. -/
  leadingZeros : Nat := 0
  /-- An underscore stands between the digits. -/
  separated : Bool := false
  errors : FlagSet Numeral.Error := ∅
deriving DecidableEq, Repr, Inhabited

namespace Numeral

/-- The radix of a numeral. -/
def radix (n : Numeral) : Radix := n.style.radix

/-- Something is wrong with the numeral. -/
def hasError (n : Numeral) : Bool := !n.errors.isEmpty

/-! ## Digits -/

/-- **The digits of a numeral** as far as they can be read. -/
structure DigitRun where
  /-- The number of zeros at the start. -/
  zeros : Nat := 0
  /-- The digits after them, without separators, up to the first bad one. -/
  significant : Bytes := []
  /-- A separator came before the first bad digit. -/
  separated : Bool := false
  /-- There is a bad digit. -/
  invalid : Bool := false
deriving DecidableEq, Repr

namespace DigitRun

/-- Reads digits and separators up to the first byte that is neither. -/
def readSignificant (r : Radix) : Bytes → DigitRun
  | [] => {}
  | b :: rest =>
    if b = Ascii.underscore then { readSignificant r rest with separated := true }
    else if (r.digit? b).isSome then
      let run := readSignificant r rest
      { run with significant := b :: run.significant }
    else { invalid := true }

/-- **Reads the digits of a numeral.** -/
def read (r : Radix) (digits : Bytes) : DigitRun :=
  let zeros := digits.takeWhile (· == Ascii.zero)
  { readSignificant r (digits.drop zeros.length) with zeros := zeros.length }

/-- The number that the significant digits denote, when all of them are digits of the radix. -/
def value? (run : DigitRun) (r : Radix) : Option Nat := r.ofDigits? run.significant

end DigitRun

/-! ## Numerals -/

/-- Why a numeral could not be read at all. -/
inductive ReadError
  /-- A significant digit is none of the radix. -/
  | digitOutsideBase
deriving DecidableEq, Repr

def ReadError.message : ReadError → Bytes
  | .digitOutsideBase => ascii "digit buffer holds a digit outside the base"

/-- A letter stands first in a numeral whose hexadecimal digits must start with a decimal one. -/
def startsWithHex (g : Grammar) (l : Layout) : Bool :=
  g.decimalFirst && l.style.isHexSuffix &&
    match l.digits.head? with
    | some b => (Radix.hexadecimal.digit? b).any (9 < ·)
    | none => false

/-- The significant digits of a literal under a grammar. -/
def digitRun (g : Grammar) (literal : Bytes) : DigitRun :=
  let l := Layout.ofLiteral g literal
  DigitRun.read l.style.radix l.digits

/-- **Reads a numeral** under a grammar. -/
def parse? (g : Grammar) (literal : Bytes) : Except ReadError Numeral :=
  let l := Layout.ofLiteral g literal
  let run := DigitRun.read l.style.radix l.digits
  match run.value? l.style.radix with
  | none => .error .digitOutsideBase
  | some magnitude =>
    let value : Int := if l.sign = .minus then -magnitude else magnitude
    .ok {
      literal, value
      sign := l.sign
      style := l.style
      leadingZeros := run.zeros
      separated := run.separated
      errors := l.errors ∪ flagIf (startsWithHex g l) .startsWithHex
        ∪ flagIf run.invalid .invalidDigit
        ∪ flagIf (l.digits = []) .noDigits
        ∪ flagIf (run.separated ∧ ¬g.separators) .invalidSeparator
        ∪ flagIf (¬g.inRange value) .range }

/-- **Reads a numeral**; one that cannot be read at all counts as a bad digit. -/
def parse (g : Grammar) (literal : Bytes) : Numeral :=
  match parse? g literal with
  | .ok n => n
  | .error .digitOutsideBase => { literal, errors := {.invalidDigit} }

end Numeral

end WhitespaceAsm

import WhitespaceAsm.Numeral.Style

/-!
# Numeral grammars

A grammar says which signs, base styles and digit separators a dialect knows and which values it
takes.

* `Numeral.SignStyle`, **`Numeral.Grammar`**, `Numeral.Grammar.inRange`;
* the grammars of the dialects: `haskell` (the one of Burghard), `palaiologos`, `voliva`,
  `censoredUsername`, `wconrad`, `wsf`;
* `Numeral.Error`: what can be wrong with a numeral.
-/

namespace WhitespaceAsm.Numeral

/-- **How signs are written.** -/
inductive SignStyle
  /-- A minus or nothing. -/
  | minus
  /-- A minus, a plus or nothing. -/
  | plusMinus
  /-- As Haskell reads an integer: a minus, with parentheses and spaces around the parts. -/
  | haskell
deriving DecidableEq, Repr, Inhabited

def SignStyle.name : SignStyle → String
  | minus => "Neg"
  | plusMinus => "NegPos"
  | haskell => "Haskell"

/-- **A numeral grammar.** -/
structure Grammar where
  signs : SignStyle := .minus
  styles : FlagSet BaseStyle := {.decimal}
  /-- Underscores may stand between the digits. -/
  separators : Bool := false
  /-- A numeral with a suffix for hexadecimal must start with a decimal digit. -/
  decimalFirst : Bool := false
  min : Option Int := none
  max : Option Int := none
deriving DecidableEq, Repr, Inhabited

namespace Grammar

/-- Some style of the grammar has a prefix. -/
def usesPrefix (g : Grammar) : Bool := !(g.styles ∩ BaseStyle.prefixed).isEmpty

/-- Some style of the grammar has a suffix. -/
def usesSuffix (g : Grammar) : Bool := !(g.styles ∩ BaseStyle.suffixed).isEmpty

/-- The value lies within the bounds that the grammar has. -/
def inRange (g : Grammar) (value : Int) : Bool :=
  g.min.all (· ≤ value) && g.max.all (value ≤ ·)

/-! ## The grammars of the dialects -/

/-- Integers as Haskell reads them. -/
def haskell : Grammar where
  signs := .haskell
  styles := {.decimal, .octPrefixLower, .octPrefixUpper, .hexPrefixLower, .hexPrefixUpper}

/-- Decimal with suffixes for binary and hexadecimal, in 32 bits without the lowest value. -/
def palaiologos : Grammar where
  styles := {.decimal, .binSuffixLower, .binSuffixUpper, .hexSuffixLower, .hexSuffixUpper}
  decimalFirst := true
  min := some (-2147483647)
  max := some 2147483647

/-- Decimal with prefixes for binary, octal and hexadecimal. -/
def voliva : Grammar where
  signs := .plusMinus
  styles := {.decimal, .binPrefixLower, .binPrefixUpper, .octPrefixLower, .octPrefixUpper,
    .hexPrefixLower, .hexPrefixUpper}

/-- Decimal with a minus. -/
def censoredUsername : Grammar := {}

/-- Decimal with either sign. -/
def wconrad : Grammar where
  signs := .plusMinus

/-- Decimal with prefixes for binary and hexadecimal. -/
def wsf : Grammar where
  styles := {.decimal, .binPrefixLower, .binPrefixUpper, .hexPrefixLower, .hexPrefixUpper}

end Grammar

/-! ## Errors -/

/-- **What is wrong with a numeral.** -/
inductive Error
  /-- A digit that the radix does not have. -/
  | invalidDigit
  /-- No digit after the marker of the base. -/
  | noDigits
  /-- A value out of bounds. -/
  | range
  /-- A sign that is not allowed where it stands. -/
  | invalidSign
  /-- A base style that the grammar does not have. -/
  | invalidBase
  /-- An underscore although the grammar has no separators. -/
  | invalidSeparator
  /-- A letter first in a numeral with a suffix for hexadecimal. -/
  | startsWithHex
  /-- A parenthesis without its partner. -/
  | unpairedParen
deriving DecidableEq, Repr

namespace Error

/-- Every error, in order. -/
def all : List Error :=
  [.invalidDigit, .noDigits, .range, .invalidSign, .invalidBase, .invalidSeparator,
   .startsWithHex, .unpairedParen]

instance : Flag Error where
  all := all
  bit e := e.ctorIdx

def name : Error → String
  | invalidDigit => "InvalidDigit"
  | noDigits => "NoDigits"
  | range => "Range"
  | invalidSign => "InvalidSign"
  | invalidBase => "InvalidBase"
  | invalidSeparator => "InvalidDigitSep"
  | startsWithHex => "StartsWithHex"
  | unpairedParen => "UnpairedParen"

/-- The names of some errors, separated by commas. -/
def names (errors : FlagSet Error) : Bytes :=
  (ascii ", ").intercalate (errors.toList.map fun e => ascii e.name)

end Error

end WhitespaceAsm.Numeral

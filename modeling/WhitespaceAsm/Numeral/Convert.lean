import WhitespaceAsm.Numeral.Parse

/-!
# Writing a numeral under another grammar

The value stays. The markers of sign and base are written anew, and the digits are copied while the
radix stays and printed from the value otherwise.

* **`Numeral.convert`**: the numeral under another grammar;
* `Numeral.compatible`: the literal is already what `convert` would write.
-/

namespace WhitespaceAsm.Numeral

/-- The first hexadecimal digit of a number is a letter, so that a numeral with a suffix would begin
like a word. -/
def topHexDigitIsLetter (magnitude : Nat) : Bool :=
  magnitude != 0 && (Radix.hexadecimal.digits magnitude).head?.any (0x61 ≤ ·)

/-- The number of zeros to write before the other digits. A decimal numeral keeps none where a zero
would be read as the prefix of an octal one, except for a bare zero; and a zero that only keeps a
letter from standing first goes or comes with the suffix for hexadecimal. -/
def convertedZeros (n : Numeral) (target : Grammar) (style : BaseStyle) (bareZero : Bool) : Nat :=
  let letter := topHexDigitIsLetter n.value.natAbs
  if style.radix = .decimal ∧ .octPrefixZero ∈ target.styles then
    if bareZero ∧ 0 < n.leadingZeros then 1 else 0
  else if n.style.isHexSuffix ∧ ¬style.isHexSuffix ∧ n.leadingZeros = 1 ∧ letter then 0
  else if ¬n.style.isHexSuffix ∧ style.isHexSuffix ∧ n.leadingZeros = 0 ∧ letter then 1
  else n.leadingZeros

/-- **The numeral under the grammar `target`**, after it has been read under the grammar `source`.
The framing of a Haskell numeral is kept where both grammars have it. -/
def convert (n : Numeral) (source target : Grammar) : Numeral :=
  let l := Layout.ofLiteral source n.literal
  let keepFraming : Bool := source.signs = .haskell ∧ target.signs = .haskell
  let sign :=
    if ¬keepFraming ∧ n.sign = .plus ∧ target.signs ≠ .plusMinus then .none else n.sign
  let style := n.style.nearest target.styles
  let significant := l.digits.drop n.leadingZeros
  let magnitude := n.value.natAbs
  let zeros := n.convertedZeros target style significant.isEmpty
  let keepDigits : Bool := n.style.radix = style.radix ∧ (n.separated → target.separators) ∧
    .invalidDigit ∉ n.errors
  let digits :=
    if keepDigits then significant
    else if magnitude ≠ 0 ∨ zeros = 0 then style.radix.digits magnitude
    else []
  { literal := (if keepFraming then l.opening else sign.text) ++ style.before
      ++ List.replicate zeros Ascii.zero ++ digits ++ style.after
      ++ (if keepFraming then l.closing else [])
    value := n.value
    sign
    style
    leadingZeros := zeros
    separated := keepDigits && n.separated
    errors := (n.errors ∩ {.invalidDigit, .noDigits}) ∪ flagIf (¬target.inRange n.value) .range }

/-- **The literal is valid under the grammar `target` as it stands**, as far as `convert` can
tell. -/
def compatible (n : Numeral) (source target : Grammar) : Bool :=
  n.style ∈ target.styles && (n.convert source target).literal == n.literal

end WhitespaceAsm.Numeral

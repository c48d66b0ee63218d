import WhitespaceAsm.Numeral.Grammar
import WhitespaceAsm.Utf8

/-!
# The parts of a numeral

A numeral is cut into what opens it (sign, parentheses and spaces), a marker of its base, digits, a
second marker of its base and what closes it. Under the grammar of Haskell the parts around the
body are peeled off layer by layer, so that incomplete framing is read as far as it goes.

* `Numeral.Framing`: a numeral on the way, **`Numeral.Framing.peel`**: with its framing removed;
* `Numeral.Marked`: a body cut at the markers of its base;
* **`Numeral.Layout`**, `Numeral.Layout.ofLiteral`: all parts of a literal.
-/

namespace WhitespaceAsm.Numeral

/-! ## Signs and framing -/

/-- A space between the parts of a Haskell numeral: the ASCII blanks and the Unicode spaces, without
the line breaks outside ASCII. -/
def isHaskellSpace (c : Nat) : Bool :=
  (0x09 ≤ c && c ≤ 0x0D) || c == 0x20 || c == 0xA0 || c == 0x1680 ||
    (0x2000 ≤ c && c ≤ 0x200A) || c == 0x202F || c == 0x205F || c == 0x3000

/-- **A numeral with part of its framing removed.** -/
structure Framing where
  sign : Sign := .none
  errors : FlagSet Error := ∅
  /-- What has been removed at the start. -/
  opening : Bytes := []
  body : Bytes
  /-- What has been removed at the end. -/
  closing : Bytes := []
deriving DecidableEq, Repr

namespace Framing

/-- Removes the spaces at the start of the body. -/
def trimStart (f : Framing) : Framing :=
  let blank := Utf8.takeChars isHaskellSpace f.body
  { f with opening := f.opening ++ blank, body := f.body.drop blank.length }

/-- Removes the spaces at the end of the body. -/
def trimEnd (f : Framing) : Framing :=
  let body := Utf8.trimEnd isHaskellSpace f.body
  { f with body, closing := f.body.drop body.length ++ f.closing }

/-- A sign has been removed. -/
def signed (f : Framing) : Bool := f.sign != .none

/-- Removes a minus. Each flips the sign, and one after another sign is an error. -/
def peelMinus (f : Framing) (rest : Bytes) : Framing :=
  trimStart { f with
    sign := if f.sign = .minus then .plus else .minus
    errors := f.errors ∪ flagIf f.signed .invalidSign
    opening := f.opening ++ [Ascii.minus]
    body := rest }

/-- Removes a plus, which is always an error. -/
def peelPlus (f : Framing) (rest : Bytes) : Framing :=
  trimStart { f with
    sign := if f.sign = .none then .plus else f.sign
    errors := f.errors ∪ {.invalidSign}
    opening := f.opening ++ [Ascii.plus]
    body := rest }

/-- Removes a pair of parentheses. One after a sign is an error. -/
def peelPair (f : Framing) (rest : Bytes) : Framing :=
  trimEnd <| trimStart { f with
    errors := f.errors ∪ flagIf f.signed .invalidSign
    opening := f.opening ++ [Ascii.leftParen]
    body := rest.dropLast
    closing := Ascii.rightParen :: f.closing }

/-- Removes an opening parenthesis without a partner. -/
def peelLeft (f : Framing) (rest : Bytes) : Framing :=
  trimStart { f with
    errors := f.errors ∪ flagIf f.signed .invalidSign ∪ {.unpairedParen}
    opening := f.opening ++ [Ascii.leftParen]
    body := rest }

/-- Removes a closing parenthesis without a partner. -/
def peelRight (f : Framing) : Framing :=
  trimEnd { f with
    errors := f.errors ∪ {.unpairedParen}
    body := f.body.dropLast
    closing := Ascii.rightParen :: f.closing }

/-- Removes the outermost layer, unless the body begins and ends with something else. -/
def peelOne? (f : Framing) : Option Framing :=
  match f.body with
  | [] => none
  | first :: rest =>
    let closes := f.body.getLast? = some Ascii.rightParen
    if first = Ascii.minus then some (f.peelMinus rest)
    else if first = Ascii.plus then some (f.peelPlus rest)
    else if first = Ascii.leftParen ∧ closes then some (f.peelPair rest)
    else if first = Ascii.leftParen then some (f.peelLeft rest)
    else if closes then some f.peelRight
    else none

theorem body_trimStart_length_le (f : Framing) : f.trimStart.body.length ≤ f.body.length := by
  simp [trimStart]

theorem length_trimEnd_le (p : Nat → Bool) (s : Bytes) :
    (Utf8.trimEnd p s).length ≤ s.length := by
  fun_induction Utf8.trimEnd p s with
  | case1 s c h ih => simp only [List.length_take] at ih; omega
  | case2 s c h => exact Nat.le_refl _

theorem body_trimEnd_length_le (f : Framing) : f.trimEnd.body.length ≤ f.body.length :=
  length_trimEnd_le _ _

/-- A layer is at least one byte of the body. -/
theorem body_length_lt_of_peelOne? {f g : Framing} (h : f.peelOne? = some g) :
    g.body.length < f.body.length := by
  unfold peelOne? at h
  split at h
  · simp at h
  · next first rest hb =>
    have hlen : f.body.length = rest.length + 1 := by simp [hb]
    simp only at h
    split at h
    · cases h
      exact Nat.lt_of_le_of_lt (body_trimStart_length_le _) (by simp [hlen])
    · split at h
      · cases h
        exact Nat.lt_of_le_of_lt (body_trimStart_length_le _) (by simp [hlen])
      · split at h
        · cases h
          refine Nat.lt_of_le_of_lt (body_trimEnd_length_le _) ?_
          refine Nat.lt_of_le_of_lt (body_trimStart_length_le _) ?_
          simp only [hlen, List.length_dropLast]
          omega
        · split at h
          · cases h
            exact Nat.lt_of_le_of_lt (body_trimStart_length_le _) (by simp [hlen])
          · split at h
            · cases h
              exact Nat.lt_of_le_of_lt (body_trimEnd_length_le _) (by simp [hlen])
            · simp at h

/-- **Removes layer after layer.** -/
def peel (f : Framing) : Framing :=
  match _h : f.peelOne? with
  | none => f
  | some g => g.peel
termination_by f.body.length
decreasing_by exact body_length_lt_of_peelOne? _h

/-- The framing of a Haskell numeral. -/
def ofHaskell (literal : Bytes) : Framing := peel (trimEnd (trimStart { body := literal }))

/-- The framing of any other numeral: at most one sign. -/
def ofSign (signs : SignStyle) (literal : Bytes) : Framing :=
  match literal with
  | [] => { body := [] }
  | b :: rest =>
    if b = Ascii.minus then { sign := .minus, opening := [b], body := rest }
    else if b = Ascii.plus then
      { sign := .plus, errors := flagIf (signs ≠ .plusMinus) .invalidSign, opening := [b],
        body := rest }
    else { body := literal }

/-- **The framing of a numeral** under a sign style. -/
def ofLiteral (signs : SignStyle) (literal : Bytes) : Framing :=
  match signs with
  | .haskell => ofHaskell literal
  | .minus | .plusMinus => ofSign signs literal

end Framing

/-! ## Markers of the base -/

/-- **The body of a numeral cut at the markers of its base.** -/
structure Marked where
  style : BaseStyle := .decimal
  before : Bytes := []
  digits : Bytes
  after : Bytes := []
deriving DecidableEq, Repr

namespace Marked

/-- The style of the letter that follows a zero. -/
def prefixStyle? (b : UInt8) : Option BaseStyle :=
  if b = 0x78 then some .hexPrefixLower
  else if b = 0x58 then some .hexPrefixUpper
  else if b = 0x62 then some .binPrefixLower
  else if b = 0x42 then some .binPrefixUpper
  else if b = 0x6F then some .octPrefixLower
  else if b = 0x4F then some .octPrefixUpper
  else none

/-- The style of the last letter of a numeral. -/
def suffixStyle? (b : UInt8) : Option BaseStyle :=
  if b = 0x68 then some .hexSuffixLower
  else if b = 0x48 then some .hexSuffixUpper
  else if b = 0x62 then some .binSuffixLower
  else if b = 0x42 then some .binSuffixUpper
  else if b = 0x6F then some .octSuffixLower
  else if b = 0x4F then some .octSuffixUpper
  else none

/-- Reads a prefix: a zero with a letter, or a zero before anything else when `zero` allows it. -/
def ofPrefix (zero : Bool) (body : Bytes) : Marked :=
  match body with
  | b :: c :: rest =>
    if b = Ascii.zero then
      match prefixStyle? c with
      | some style => { style, before := [b, c], digits := rest }
      | none =>
        if zero then { style := .octPrefixZero, before := [b], digits := c :: rest }
        else { digits := body }
    else { digits := body }
  | _ => { digits := body }

/-- Reads a suffix. -/
def ofSuffix (body : Bytes) : Marked :=
  match body.getLast? with
  | none => { digits := body }
  | some b =>
    match suffixStyle? b with
    | some style => { style, digits := body.dropLast, after := [b] }
    | none => { digits := body }

/-- **Reads the marker of a base.** A grammar with some prefix reads no suffix. -/
def ofBody (g : Grammar) (body : Bytes) : Marked :=
  if g.usesPrefix then ofPrefix (.octPrefixZero ∈ g.styles) body
  else if g.usesSuffix then ofSuffix body
  else { digits := body }

end Marked

/-! ## Layouts -/

/-- **The parts of a numeral**, in the order in which they are written, with what they say. -/
structure Layout where
  sign : Sign
  style : BaseStyle
  /-- What is wrong with the sign, the framing and the base style. -/
  errors : FlagSet Error
  opening : Bytes
  before : Bytes
  digits : Bytes
  after : Bytes
  closing : Bytes
deriving DecidableEq, Repr

namespace Layout

/-- **Cuts a literal into its parts** under a grammar. -/
def ofLiteral (g : Grammar) (literal : Bytes) : Layout :=
  let framing := Framing.ofLiteral g.signs literal
  let marked := Marked.ofBody g framing.body
  { sign := framing.sign
    style := marked.style
    errors := framing.errors ∪ flagIf (marked.style ∉ g.styles) .invalidBase
    opening := framing.opening
    before := marked.before
    digits := marked.digits
    after := marked.after
    closing := framing.closing }

/-- Where the body begins. -/
def bodyStart (l : Layout) : Nat := l.opening.length

/-- Where the digits begin. -/
def digitsStart (l : Layout) : Nat := l.bodyStart + l.before.length

/-- Where the digits end. -/
def digitsEnd (l : Layout) : Nat := l.digitsStart + l.digits.length

/-- Where the body ends. -/
def bodyEnd (l : Layout) : Nat := l.digitsEnd + l.after.length

end Layout

end WhitespaceAsm.Numeral

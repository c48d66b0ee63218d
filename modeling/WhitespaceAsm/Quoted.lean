import WhitespaceAsm.Bytes

/-!
# Literals in quotes

A literal stays on its line. A backslash takes the byte after it along, so that a quote after it
does not end the literal.

* **`quotedBody`**: what stands between the quotes; `endsInEscape`: it ends in a lone backslash.
-/

namespace WhitespaceAsm

/-- **What follows an opening quote**, up to the closing quote, a line feed or the end. -/
def quotedBody (quote : UInt8) : Bytes → Bytes
  | [] => []
  | [b] => if b = quote ∨ b = Ascii.lf then [] else [b]
  | b :: c :: rest =>
    if b = quote ∨ b = Ascii.lf then []
    else if b = Ascii.backslash ∧ c ≠ Ascii.lf then b :: c :: quotedBody quote rest
    else b :: quotedBody quote (c :: rest)

/-- The body of a literal ends in a backslash that takes no other byte along. -/
def endsInEscape : Bytes → Bool
  | [] => false
  | [b] => b == Ascii.backslash
  | b :: c :: rest => if b = Ascii.backslash then endsInEscape rest else endsInEscape (c :: rest)

/-- The first byte of a text when it is the quote that closes a literal. -/
def closingQuote (quote : UInt8) (s : Bytes) : Bytes := s.takeWhile (· == quote) |>.take 1

end WhitespaceAsm

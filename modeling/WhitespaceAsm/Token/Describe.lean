import WhitespaceAsm.Token.Basic

/-!
# Descriptions of tokens

* **`escapeText`**: bytes as printable ASCII, so that different bytes read differently;
* **`Token.describe`**: the kind of a token, its text and what it carries, on one line.
-/

namespace WhitespaceAsm

/-- A byte as printable ASCII: a line feed, a carriage return, a tab, a double quote and a backslash
after a backslash, other bytes that do not print as `\x` with two hexadecimal digits. -/
def escapeByte (b : UInt8) : Bytes :=
  if b = Ascii.lf then ascii "\\n"
  else if b = Ascii.cr then ascii "\\r"
  else if b = Ascii.tab then ascii "\\t"
  else if b = Ascii.doubleQuote then [Ascii.backslash, Ascii.doubleQuote]
  else if b = Ascii.backslash then [Ascii.backslash, Ascii.backslash]
  else if 0x20 ≤ b ∧ b < 0x7F then [b]
  else ascii "\\x" ++ hexadecimal 2 b.toNat

/-- **Bytes as printable ASCII.** -/
def escapeText (s : Bytes) : Bytes := s.flatMap escapeByte

/-- An escaped text in double quotes. -/
def quoteText (s : Bytes) : Bytes := [Ascii.doubleQuote] ++ escapeText s ++ [Ascii.doubleQuote]

/-- The flags of a payload in hexadecimal, when there are any. -/
def describeFlags {ε : Type} (errors : FlagSet ε) : Bytes :=
  if errors.isEmpty then [] else ascii " errors=0x" ++ hexadecimal 1 errors.bits

namespace Payload

/-- What a payload adds to the description of its token. -/
def details : Payload → Bytes
  | .mnemonic opcode => ascii " " ++ ascii opcode.name
  | .integer n =>
    ascii " value=" ++ signedDecimal n.value ++ ascii " base=" ++ ascii n.style.name
      ++ (if n.leadingZeros = 0 then [] else ascii " zeros=" ++ decimal n.leadingZeros)
      ++ (if n.errors.isEmpty then []
          else ascii " errors=[" ++ Numeral.Error.names n.errors ++ ascii "]")
  | .string s =>
    ascii " value=" ++ quoteText s.unescaped ++ ascii " " ++ ascii s.quotes.name
      ++ describeFlags s.errors
  | .char c =>
    ascii " value=U+" ++ (hexadecimal 4 c.value).map Ascii.toUpper ++ describeFlags c.errors
  | .variable _ name => ascii " ident=" ++ quoteText name
  | .label l => ascii " label=" ++ quoteText l.name ++ describeFlags l.errors
  | .argSep errors => describeFlags errors
  | .blockComment c =>
    (if c.terminated then [] else ascii " unterminated")
      ++ (if .unopened ∈ c.errors then ascii " unopened" else [])
  | .error kind length =>
    ascii " " ++ ascii kind.name
      ++ (if kind = .invalidUtf8 then ascii " len=" ++ decimal length else [])
  | .labelColon | .instSep _ | .space | .lineTerm _ | .endOfInput | .lineComment _ | .word _ => []

end Payload

namespace Token

mutual

/-- **The description of a token**: its kind, its text and what it carries. -/
def describe : Token → Bytes
  | plain text payload =>
    ascii payload.kind.name ++ ascii " " ++ quoteText text ++ payload.details
  | quoted text inner _ terminated =>
    ascii TokenKind.quoted.name ++ ascii " " ++ quoteText text
      ++ (if terminated then [] else ascii " unterminated") ++ describeWrapped inner
  | spliced text parts word =>
    ascii TokenKind.spliced.name ++ ascii " " ++ quoteText text
      ++ ascii " parts=" ++ decimal parts.length ++ describeWrapped word

/-- The description of a wrapped token in parentheses. -/
def describeWrapped : Option Token → Bytes
  | none => []
  | some t => ascii " (" ++ t.describe ++ ascii ")"

end

end Token

end WhitespaceAsm

import WhitespaceAsm.Comment
import WhitespaceAsm.Lexing
import WhitespaceAsm.Quoted

/-!
# The tokens of the voliva dialect

Spaces are those of JavaScript, and so are the escapes in literals. A word is an integer only when
all of it is one. Text that is not well-formed is flagged on the token where it stands.

* `isSpace`, `unescape`: the spaces, and the value of a literal;
* one function per class of tokens: `readString`, `readChar`, `readWord`;
* **`Voliva.next`**: the first token of a text; `Voliva.lex`: all of them.
-/

namespace WhitespaceAsm.Voliva

/-- A space of JavaScript other than the line feed. -/
def isSpace (c : Nat) : Bool :=
  c == 0x09 || c == 0x0B || c == 0x0C || c == 0x0D || c == 0x20 || c == 0xA0 || c == 0x1680
    || (0x2000 ≤ c && c ≤ 0x200A) || c == 0x2028 || c == 0x2029 || c == 0x202F || c == 0x205F
    || c == 0x3000 || c == 0xFEFF

def atSpace (s : Bytes) : Bool :=
  let c := Utf8.decode s
  c.valid && isSpace c.codePoint

def atWordEnd (s : Bytes) : Bool :=
  match s with
  | [] => true
  | b :: _ =>
    b == Ascii.semicolon || b == Ascii.doubleQuote || b == Ascii.singleQuote || b == Ascii.lf
      || atSpace s

/-! ## Escapes -/

/-- The character that a backslash before `c` stands for, if there is such an escape. A quote can
only be escaped in a literal with the same quotes. -/
def escaped? (quote : UInt8) (c : Nat) : Option Nat :=
  if c = 0x22 ∨ c = 0x27 then if c = quote.toNat then some c else none
  else if c = 0x5C then some c
  else if c = 0x62 then some 0x08
  else if c = 0x66 then some 0x0C
  else if c = 0x6E then some 0x0A
  else if c = 0x72 then some 0x0D
  else if c = 0x74 then some 0x09
  else if c = 0x76 then some 0x0B
  else none

/-- **The value of a literal**, with what is wrong in it. -/
structure Unescaped where
  value : Bytes := []
  invalidEscape : Bool := false
  invalidUtf8 : Bool := false
deriving DecidableEq, Repr

namespace Unescaped

/-- The value with a code point before it. -/
def afterChar (c : Nat) (u : Unescaped) : Unescaped :=
  { u with value := Utf8.encode c ++ u.value }

/-- The value after an ill-formed unit, for which a replacement character stands. -/
def afterIllFormed (u : Unescaped) : Unescaped :=
  { u.afterChar Utf8.replacement with invalidUtf8 := true }

/-- The value after something that is not an escape. -/
def afterBadEscape (u : Unescaped) : Unescaped := { u with invalidEscape := true }

end Unescaped

/-- **Reads the escapes of a literal.** An unknown one stands for the escaped character, and a
backslash at the end for itself. -/
def unescape (quote : UInt8) : Bytes → Unescaped
  | [] => {}
  | b :: rest =>
    let c := Utf8.decode (b :: rest)
    if ¬c.valid then (unescape quote (rest.drop (c.length - 1))).afterIllFormed
    else if c.codePoint ≠ 0x5C then
      (unescape quote (rest.drop (c.length - 1))).afterChar c.codePoint
    else
      match rest with
      | [] => { value := [Ascii.backslash], invalidEscape := true }
      | e :: more =>
        let d := Utf8.decode (e :: more)
        let after := unescape quote (more.drop (d.length - 1))
        if ¬d.valid then after.afterIllFormed.afterBadEscape
        else match escaped? quote d.codePoint with
          | some c => after.afterChar c
          | none => (after.afterChar d.codePoint).afterBadEscape
termination_by s => s.length
decreasing_by all_goals simp only [List.length_drop, List.length_cons]; omega

/-! ## Literals -/

/-- **Reads a string literal** after its opening quote. -/
def readString (rest : Bytes) : Token :=
  let body := quotedBody Ascii.doubleQuote rest
  let quote := closingQuote Ascii.doubleQuote (rest.drop body.length)
  let u := unescape Ascii.doubleQuote body
  .plain ([Ascii.doubleQuote] ++ body ++ quote) (.string {
    literal := body
    unescaped := u.value
    encoding := .utf8
    quotes := .double
    errors := flagIf (quote = []) .unterminated ∪ flagIf u.invalidEscape .invalidEscape
      ∪ flagIf u.invalidUtf8 .invalidUtf8 })

/-- **Reads a character literal** after its opening quote. -/
def readChar (rest : Bytes) : Token :=
  let body := quotedBody Ascii.singleQuote rest
  let quote := closingQuote Ascii.singleQuote (rest.drop body.length)
  let u := unescape Ascii.singleQuote body
  let c := Utf8.decode u.value
  .plain ([Ascii.singleQuote] ++ body ++ quote) (.char {
    literal := body
    value := if u.value = [] then 0 else c.codePoint
    encoding := .utf8
    quotes := .single
    errors := flagIf (quote = []) .unterminated ∪ flagIf u.invalidEscape .invalidEscape
      ∪ flagIf u.invalidUtf8 .invalidUtf8 ∪ flagIf (u.value = []) .empty
      ∪ flagIf (c.length < u.value.length) .moreThanOne })

/-! ## Words -/

/-- **A word that has been read.** It is an integer when all of it is one, signs being for decimal
only. -/
def wordToken (text : Bytes) : Token :=
  let integer := Numeral.parse .voliva text
  if ¬integer.hasError ∧ (integer.sign = .none ∨ integer.style = .decimal) then
    .plain text (.integer integer)
  else
    .plain text (.word (flagIf (¬Utf8.isValid text) .invalidUtf8))

/-- **Reads a word** from its first byte on. -/
def readWord (b : UInt8) (rest : Bytes) : Token := wordToken (b :: takeUntil atWordEnd rest)

/-! ## All tokens -/

/-- **The first token of a text.** -/
def next (b : UInt8) (rest : Bytes) : Token :=
  if b = Ascii.doubleQuote then readString rest
  else if b = Ascii.singleQuote then readChar rest
  else if b = Ascii.semicolon then Token.checkedComment 1 (b :: rest)
  else if b = Ascii.lf then .plain [b] (.lineTerm .lf)
  else if atSpace (b :: rest) then .plain (Utf8.takeChars isSpace (b :: rest)) .space
  else readWord b rest

/-- **The tokens of a program.** -/
def lex (src : Bytes) : List Token := tokenize next src

end WhitespaceAsm.Voliva

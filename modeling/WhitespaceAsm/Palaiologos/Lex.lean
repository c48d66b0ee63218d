import WhitespaceAsm.Comment
import WhitespaceAsm.Lexing
import WhitespaceAsm.Palaiologos.Mnemonics
import WhitespaceAsm.Quoted

/-!
# The tokens of the Palaiologos dialect

Nothing needs to end a mnemonic, so that the longest one that starts the text is taken, and letters
that start none are an invalid mnemonic up to the next valid one. Literals are bytes. Characters
that can start no token are taken together.

* one function per class of tokens: `readMnemonic`, `readInteger`, `readLabel`, `readChar`,
  `readString`, `readUnrecognized`;
* **`Palaiologos.next`**: the first token of a text; `Palaiologos.lex`: all of them.
-/

namespace WhitespaceAsm.Palaiologos

def isSpace (b : UInt8) : Bool :=
  b == Ascii.space || b == Ascii.tab || b == Ascii.cr || b == Ascii.formFeed

/-- A letter or an underscore. -/
def isMnemonicByte (b : UInt8) : Bool := Ascii.isLetter b || b == Ascii.underscore

/-- A byte of the digits of an integer. -/
def isDigitByte (b : UInt8) : Bool := Ascii.isHexDigit b || b == Ascii.underscore

def startsToken (b : UInt8) : Bool :=
  isMnemonicByte b || Ascii.isDigit b || isSpace b
    || b == Ascii.minus || b == Ascii.plus || b == Ascii.atSign || b == Ascii.percent
    || b == Ascii.singleQuote || b == Ascii.doubleQuote || b == Ascii.semicolon
    || b == Ascii.comma || b == Ascii.slash || b == Ascii.lf

/-! ## Mnemonics and integers -/

/-- An integer token with some text. -/
def integerToken (text : Bytes) : Token := .plain text (.integer (Numeral.parse .palaiologos text))

/-- A hexadecimal integer that starts with a letter: digits and a suffix. -/
def hexInteger? (s : Bytes) : Option Bytes :=
  let digits := s.takeWhile isDigitByte
  match (s.drop digits.length).head? with
  | some b => if b = 0x68 ∨ b = 0x48 then some (digits ++ [b]) else none
  | none => none

/-- No mnemonic goes on here: something else follows, or a valid mnemonic begins. -/
def endsInvalid (s : Bytes) : Bool :=
  !s.head?.any isMnemonicByte || (mnemonics.longestMatch? s).isSome

/-- **Reads a mnemonic**, or a hexadecimal integer that starts with a letter where no mnemonic
matches. -/
def readMnemonic (b : UInt8) (rest : Bytes) : Token :=
  match mnemonics.longestMatch? (b :: rest) with
  | some found =>
    .plain ((b :: rest).take found.length)
      (.mnemonic ((found.value.head?.map (·.opcode)).getD .invalid))
  | none =>
    match if Ascii.isHexDigit b then hexInteger? (b :: rest) else none with
    | some text => integerToken text
    | none => .plain (b :: takeUntil endsInvalid rest) (.mnemonic .invalid)

/-- The letter of a base after the digits of an integer. -/
def isBaseSuffix (b : UInt8) : Bool := b == 0x68 || b == 0x48 || b == 0x6F || b == 0x4F

/-- **Reads an integer** from a digit or a sign on. A sign alone is no token. -/
def readInteger (b : UInt8) (rest : Bytes) : Token :=
  let digits := rest.takeWhile isDigitByte
  let suffix := (rest.drop digits.length).takeWhile isBaseSuffix |>.take 1
  let text := b :: (digits ++ suffix)
  if (b = Ascii.minus ∨ b = Ascii.plus) ∧ text = [b] then
    .plain text (.error .unrecognizedChar 0)
  else
    integerToken text

/-! ## Labels -/

/-- **Reads a label** with its sigil. -/
def readLabel (sigil : UInt8) (rest : Bytes) : Token :=
  let name := rest.takeWhile Ascii.isIdentifier
  .plain (sigil :: name) (.label {
    sigil := [sigil]
    name
    style := if sigil = Ascii.atSign then .atSigil else .percentSigil
    errors := flagIf (name = []) .empty ∪ flagIf (name.head?.any Ascii.isDigit) .startsWithDigit })

/-! ## Literals -/

/-- The byte that a backslash before `b` stands for. -/
def unescape (b : UInt8) : UInt8 :=
  if b = 0x61 then 0x07
  else if b = 0x62 then 0x08
  else if b = 0x66 then Ascii.formFeed
  else if b = 0x6E then Ascii.lf
  else if b = 0x72 then Ascii.cr
  else if b = 0x74 then Ascii.tab
  else if b = 0x76 then Ascii.verticalTab
  else b

/-- The value of a character literal with what is wrong inside it. An escape takes one byte; a
character outside ASCII does not fit. -/
def charValue (body : Bytes) : Nat × FlagSet CharError :=
  let escaped : Bool := body.head? = some Ascii.backslash
  let core := if escaped then body.tail else body
  match core with
  | [] =>
    if escaped then (Ascii.backslash.toNat, {.empty, .invalidEscape}) else (0, {.empty})
  | b :: more =>
    let c := Utf8.decode core
    if c.valid ∧ 0x80 ≤ c.codePoint then
      (c.codePoint, if c.length = core.length then {.unexpectedUnicode} else {.moreThanOne})
    else
      ((if escaped then unescape b else b).toNat, flagIf (more ≠ []) .moreThanOne)

/-- **Reads a character literal** after its opening quote. -/
def readChar (rest : Bytes) : Token :=
  let body := quotedBody Ascii.singleQuote rest
  let quote := closingQuote Ascii.singleQuote (rest.drop body.length)
  let (value, errors) := charValue body
  .plain ([Ascii.singleQuote] ++ body ++ quote) (.char {
    literal := body
    value
    encoding := .bytes
    quotes := .single
    errors := flagIf (quote = []) .unterminated ∪ errors })

/-- The value of a string literal. A backslash at the end stands for nothing. -/
def stringValue : Bytes → Bytes
  | [] => []
  | [b] => if b = Ascii.backslash then [] else [b]
  | b :: c :: rest =>
    if b = Ascii.backslash then unescape c :: stringValue rest else b :: stringValue (c :: rest)

/-- **Reads a string literal** after its opening quote. -/
def readString (rest : Bytes) : Token :=
  let body := quotedBody Ascii.doubleQuote rest
  let quote := closingQuote Ascii.doubleQuote (rest.drop body.length)
  .plain ([Ascii.doubleQuote] ++ body ++ quote) (.string {
    literal := body
    unescaped := stringValue body
    encoding := .bytes
    quotes := .double
    errors := flagIf (quote = []) .unterminated ∪ flagIf (endsInEscape body) .invalidEscape })

/-! ## All tokens -/

/-- Characters that can start no token, from the byte `b` on. -/
def readUnrecognized (b : UInt8) (rest : Bytes) : Token :=
  .plain (b :: rest.takeWhile fun c => !startsToken c) (.error .unrecognizedChar 0)

/-- **The first token of a text.** -/
def next (b : UInt8) (rest : Bytes) : Token :=
  if isMnemonicByte b then readMnemonic b rest
  else if Ascii.isDigit b || b == Ascii.minus || b == Ascii.plus then readInteger b rest
  else if b = Ascii.atSign ∨ b = Ascii.percent then readLabel b rest
  else if b = Ascii.singleQuote then readChar rest
  else if b = Ascii.doubleQuote then readString rest
  else if b = Ascii.semicolon then Token.lineComment 1 (b :: rest)
  else if b = Ascii.comma then .plain [b] (.argSep ∅)
  else if b = Ascii.slash then .plain [b] (.instSep .slash)
  else if b = Ascii.lf then .plain [b] (.lineTerm .lf)
  else if isSpace b then .plain (b :: rest.takeWhile isSpace) .space
  else readUnrecognized b rest

/-- **The tokens of a program.** -/
def lex (src : Bytes) : List Token := tokenize next src

end WhitespaceAsm.Palaiologos

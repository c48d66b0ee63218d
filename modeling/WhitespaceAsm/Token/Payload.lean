import WhitespaceAsm.Numeral.Parse
import WhitespaceAsm.Opcode

/-!
# What tokens carry

Besides its text a token carries what has been read from it. Problems are flags, so that no problem
changes the text.

* `StringLiteral`, `CharLiteral`, `Label`, `LineComment`, `BlockComment`: the larger payloads, each
  with its flags;
* `TokenKind`: the kinds of tokens;
* **`Payload`**: everything that a token can be, apart from the tokens that wrap others;
  `Payload.kind`, `Payload.hasError`.
-/

namespace WhitespaceAsm

/-! ## Literals -/

/-- How the value of a literal is meant. -/
inductive Encoding
  | utf8
  | bytes
deriving DecidableEq, Repr

inductive QuoteStyle
  | double | single
  | bare
deriving DecidableEq, Repr

def QuoteStyle.name : QuoteStyle → String
  | double => "double"
  | single => "single"
  | bare => "bare"

inductive StringError
  | unterminated | invalidUtf8 | invalidEscape
deriving DecidableEq, Repr

instance : Flag StringError where
  all := [.unterminated, .invalidUtf8, .invalidEscape]
  bit e := e.ctorIdx

/-- **A string literal.** -/
structure StringLiteral where
  /-- The text between the quotes, with its escapes. -/
  literal : Bytes := []
  unescaped : Bytes := []
  encoding : Encoding := .utf8
  quotes : QuoteStyle := .double
  errors : FlagSet StringError := ∅
deriving DecidableEq, Repr

inductive CharError
  | unterminated | empty
  /-- A character outside ASCII in a literal of bytes. -/
  | unexpectedUnicode
  | moreThanOne | invalidUtf8 | invalidEscape
deriving DecidableEq, Repr

instance : Flag CharError where
  all := [.unterminated, .empty, .unexpectedUnicode, .moreThanOne, .invalidUtf8, .invalidEscape]
  bit e := e.ctorIdx

/-- **A character literal.** -/
structure CharLiteral where
  /-- The text between the quotes, with its escapes. -/
  literal : Bytes := []
  /-- The code point, or the byte of a literal of bytes. -/
  value : Nat := 0
  encoding : Encoding := .utf8
  quotes : QuoteStyle := .single
  errors : FlagSet CharError := ∅
deriving DecidableEq, Repr

/-! ## Labels and separators -/

inductive LabelStyle
  | none | atSigil | percentSigil
deriving DecidableEq, Repr

inductive LabelError
  | empty | startsWithDigit
deriving DecidableEq, Repr

instance : Flag LabelError where
  all := [.empty, .startsWithDigit]
  bit e := e.ctorIdx

/-- **A label.** -/
structure Label where
  sigil : Bytes := []
  /-- The label without its sigil. -/
  name : Bytes := []
  style : LabelStyle := .none
  errors : FlagSet LabelError := ∅
deriving DecidableEq, Repr

inductive InstSepStyle
  | semicolon | slash
deriving DecidableEq, Repr

inductive ArgSepError
  | notBetweenArguments | multiple
deriving DecidableEq, Repr

instance : Flag ArgSepError where
  all := [.notBetweenArguments, .multiple]
  bit e := e.ctorIdx

inductive LineTermStyle
  | lf | crlf | cr
deriving DecidableEq, Repr

/-! ## Comments and words -/

inductive LineCommentError
  | invalidUtf8
deriving DecidableEq, Repr

instance : Flag LineCommentError where
  all := [.invalidUtf8]
  bit _ := 0

/-- **A line comment.** -/
structure LineComment where
  marker : Bytes := []
  body : Bytes := []
  errors : FlagSet LineCommentError := ∅
deriving DecidableEq, Repr

inductive BlockCommentError
  /-- A closing marker without an opening one. -/
  | unopened
deriving DecidableEq, Repr

instance : Flag BlockCommentError where
  all := [.unopened]
  bit _ := 0

/-- **A block comment.** -/
structure BlockComment where
  opening : Bytes := []
  /-- The text between the markers, with the comments nested in it. -/
  body : Bytes := []
  /-- The closing marker, empty when there is none. -/
  closing : Bytes := []
  nested : Bool := false
  terminated : Bool := true
  errors : FlagSet BlockCommentError := ∅
deriving DecidableEq, Repr

inductive WordError
  | invalidUtf8
deriving DecidableEq, Repr

instance : Flag WordError where
  all := [.invalidUtf8]
  bit _ := 0

/-- Why some text is no token of the dialect. -/
inductive ErrorKind
  /-- The encoding is broken. -/
  | invalidUtf8
  /-- No rule reads the characters. -/
  | unrecognizedChar
deriving DecidableEq, Repr

def ErrorKind.name : ErrorKind → String
  | invalidUtf8 => "InvalidUtf8"
  | unrecognizedChar => "UnrecognizedChar"

/-! ## Kinds and payloads -/

inductive TokenKind
  | mnemonic | integer | string | char | variable | label | labelColon | instSep | argSep | space
  | lineTerm | endOfInput | lineComment | blockComment | word | quoted | spliced | error
deriving DecidableEq, Repr

def TokenKind.name : TokenKind → String
  | .mnemonic => "Mnemonic"
  | .integer => "Integer"
  | .string => "String"
  | .char => "Char"
  | .variable => "Variable"
  | .label => "Label"
  | .labelColon => "LabelColon"
  | .instSep => "InstSep"
  | .argSep => "ArgSep"
  | .space => "Space"
  | .lineTerm => "LineTerm"
  | .endOfInput => "Eof"
  | .lineComment => "LineComment"
  | .blockComment => "BlockComment"
  | .word => "Word"
  | .quoted => "Quoted"
  | .spliced => "Spliced"
  | .error => "Error"

/-- **What a token that wraps no other carries.** -/
inductive Payload
  /-- The mnemonic of an instruction with the opcode it resolves to. -/
  | mnemonic (opcode : Opcode)
  | integer (value : Numeral)
  | string (value : StringLiteral)
  | char (value : CharLiteral)
  | variable (sigil name : Bytes)
  | label (value : Label)
  | labelColon
  | instSep (style : InstSepStyle)
  /-- A comma between arguments. -/
  | argSep (errors : FlagSet ArgSepError)
  | space
  | lineTerm (style : LineTermStyle)
  /-- The end of the input, with an empty text. -/
  | endOfInput
  | lineComment (value : LineComment)
  | blockComment (value : BlockComment)
  /-- A run of text that the parser gives a meaning. -/
  | word (errors : FlagSet WordError)
  /-- Text that is no token; `length` is that of the first ill-formed unit. -/
  | error (kind : ErrorKind) (length : Nat)
deriving DecidableEq, Repr

namespace Payload

def kind : Payload → TokenKind
  | .mnemonic .. => .mnemonic
  | .integer .. => .integer
  | .string .. => .string
  | .char .. => .char
  | .variable .. => .variable
  | .label .. => .label
  | .labelColon => .labelColon
  | .instSep .. => .instSep
  | .argSep .. => .argSep
  | .space => .space
  | .lineTerm .. => .lineTerm
  | .endOfInput => .endOfInput
  | .lineComment .. => .lineComment
  | .blockComment .. => .blockComment
  | .word .. => .word
  | .error .. => .error

def hasError : Payload → Bool
  | .mnemonic opcode => opcode == .invalid
  | .integer n => n.hasError
  | .string s => !s.errors.isEmpty
  | .char c => !c.errors.isEmpty
  | .label l => !l.errors.isEmpty
  | .argSep errors => !errors.isEmpty
  | .lineComment c => !c.errors.isEmpty
  | .blockComment c => !c.errors.isEmpty || !c.terminated
  | .word errors => !errors.isEmpty
  | .error .. => true
  | .variable .. | .labelColon | .instSep .. | .space | .lineTerm .. | .endOfInput => false

end Payload

end WhitespaceAsm

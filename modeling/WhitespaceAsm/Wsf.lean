import WhitespaceAsm.Comment
import WhitespaceAsm.Lexing
import WhitespaceAsm.MnemonicTable

/-!
# The wsf dialect

Words may contain dots and minus signs, integers take prefixes for binary and hexadecimal, and a
hash begins a comment. Programs are cut into tokens only.

* `Wsf.mnemonics`;
* **`Wsf.next`**: the first token of a text; `Wsf.lex`: all of them.
-/

namespace WhitespaceAsm.Wsf

/-- **The mnemonics of the dialect**, in lower case. -/
def mnemonics : MnemonicTable :=
  MnemonicTable.ofList .exact [
    (ascii "push", [⟨.push, [.integer]⟩]),
    (ascii "dup", [⟨.dup, []⟩]),
    (ascii "copy", [⟨.copy, [.integer]⟩]),
    (ascii "swap", [⟨.swap, []⟩]),
    (ascii "pop", [⟨.drop, []⟩]),
    (ascii "slide", [⟨.slide, [.integer]⟩]),
    (ascii "add", [⟨.add, []⟩]),
    (ascii "sub", [⟨.sub, []⟩]),
    (ascii "mul", [⟨.mul, []⟩]),
    (ascii "div", [⟨.div, []⟩]),
    (ascii "mod", [⟨.mod, []⟩]),
    (ascii "set", [⟨.store, []⟩]),
    (ascii "get", [⟨.retrieve, []⟩]),
    (ascii "lbl", [⟨.label, [.label]⟩]),
    (ascii "call", [⟨.call, [.label]⟩]),
    (ascii "jmp", [⟨.jmp, [.label]⟩]),
    (ascii "jz", [⟨.jz, [.label]⟩]),
    (ascii "jn", [⟨.jn, [.label]⟩]),
    (ascii "ret", [⟨.ret, []⟩]),
    (ascii "exit", [⟨.endProgram, []⟩]),
    (ascii "pchr", [⟨.printc, []⟩]),
    (ascii "pnum", [⟨.printi, []⟩]),
    (ascii "ichr", [⟨.readc, []⟩]),
    (ascii "inum", [⟨.readi, []⟩])]

/-- A byte that can begin a word. -/
def isWordStart (b : UInt8) : Bool :=
  Ascii.isLetter b || b == Ascii.underscore || b == Ascii.dot

def isWordByte (b : UInt8) : Bool :=
  Ascii.isIdentifier b || b == Ascii.minus || b == Ascii.dot

def isSpace (b : UInt8) : Bool :=
  b == Ascii.space || b == Ascii.tab || b == Ascii.verticalTab || b == Ascii.formFeed
    || b == Ascii.cr

def startsToken (b : UInt8) : Bool :=
  isWordByte b || isSpace b || b == Ascii.colon || b == Ascii.hash || b == Ascii.lf

/-- **Reads an integer** from a digit or a minus on, with the letters that follow. -/
def readInteger (b : UInt8) (rest : Bytes) : Token :=
  let text := b :: rest.takeWhile Ascii.isIdentifier
  .plain text (.integer (Numeral.parse .wsf text))

/-- **The first token of a text.** -/
def next (b : UInt8) (rest : Bytes) : Token :=
  if isWordStart b then .plain (b :: rest.takeWhile isWordByte) (.word ∅)
  else if b == Ascii.minus || Ascii.isDigit b then readInteger b rest
  else if b = Ascii.colon then .plain [b] .labelColon
  else if b = Ascii.hash then Token.checkedComment 1 (b :: rest)
  else if b = Ascii.lf then .plain [b] (.lineTerm .lf)
  else if isSpace b then .plain (b :: rest.takeWhile isSpace) .space
  else .plain (b :: rest.takeWhile fun c => !startsToken c) (.error .unrecognizedChar 0)

/-- **The tokens of a program.** -/
def lex (src : Bytes) : List Token := tokenize next src

end WhitespaceAsm.Wsf

import WhitespaceAsm.Comment
import WhitespaceAsm.Lexing
import WhitespaceAsm.MnemonicTable

/-!
# The wconrad dialect

Tokens are separated by ASCII blanks. What begins with a sign or a digit is an integer, anything
else a word, and a hash begins a comment. Programs are cut into tokens only.

* `Wconrad.mnemonics`;
* **`Wconrad.next`**: the first token of a text; `Wconrad.lex`: all of them.
-/

namespace WhitespaceAsm.Wconrad

/-- **The mnemonics of the dialect**, in lower case. -/
def mnemonics : MnemonicTable :=
  MnemonicTable.ofList .exact [
    (ascii "push", [⟨.push, [.integer]⟩]),
    (ascii "dup", [⟨.dup, []⟩]),
    (ascii "copy", [⟨.copy, [.integer]⟩]),
    (ascii "swap", [⟨.swap, []⟩]),
    (ascii "discard", [⟨.drop, []⟩]),
    (ascii "slide", [⟨.slide, [.integer]⟩]),
    (ascii "add", [⟨.add, []⟩]),
    (ascii "sub", [⟨.sub, []⟩]),
    (ascii "mul", [⟨.mul, []⟩]),
    (ascii "div", [⟨.div, []⟩]),
    (ascii "mod", [⟨.mod, []⟩]),
    (ascii "store", [⟨.store, []⟩]),
    (ascii "retrieve", [⟨.retrieve, []⟩]),
    (ascii "label", [⟨.label, [.label]⟩]),
    (ascii "call", [⟨.call, [.label]⟩]),
    (ascii "jump", [⟨.jmp, [.label]⟩]),
    (ascii "jz", [⟨.jz, [.label]⟩]),
    (ascii "jn", [⟨.jn, [.label]⟩]),
    (ascii "ret", [⟨.ret, []⟩]),
    (ascii "exit", [⟨.endProgram, []⟩]),
    (ascii "outchar", [⟨.printc, []⟩]),
    (ascii "outnum", [⟨.printi, []⟩]),
    (ascii "readchar", [⟨.readc, []⟩]),
    (ascii "readnum", [⟨.readi, []⟩])]

def isSpace (b : UInt8) : Bool :=
  b == Ascii.space || b == Ascii.tab || b == Ascii.verticalTab || b == Ascii.formFeed
    || b == Ascii.cr

def endsWord (b : UInt8) : Bool := isSpace b || b == Ascii.lf || b == Ascii.hash

/-- **Reads a word or an integer** from its first byte on. -/
def readWord (b : UInt8) (rest : Bytes) : Token :=
  let text := b :: rest.takeWhile fun c => !endsWord c
  if b == Ascii.minus || b == Ascii.plus || Ascii.isDigit b then
    .plain text (.integer (Numeral.parse .wconrad text))
  else
    .plain text (.word (flagIf (¬Utf8.isValid text) .invalidUtf8))

/-- **The first token of a text.** -/
def next (b : UInt8) (rest : Bytes) : Token :=
  if b = Ascii.hash then Token.checkedComment 1 (b :: rest)
  else if b = Ascii.lf then .plain [b] (.lineTerm .lf)
  else if isSpace b then .plain (b :: rest.takeWhile isSpace) .space
  else readWord b rest

/-- **The tokens of a program.** -/
def lex (src : Bytes) : List Token := tokenize next src

end WhitespaceAsm.Wconrad

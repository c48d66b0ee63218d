import WhitespaceAsm.Lexicon
import WhitespaceAsm.Scanner

/-!
# Lexers at work

A lexer hands out one token after another. It holds a scanner and reads each token by the rule of
its dialect from what remains of the program. Once all of the program has been handed out, it goes
on returning the end of the input.

* **`Lexer`**, **`Lexer.nextToken`**: the next token and the lexer after it;
* `Lexer.tokenStart`: where the token at hand starts;
* `Lexer.after`, `Lexer.token`, `Lexer.start`: the calls on a lexer, counted from zero;
* `Lexicon.next`, `Lexicon.scanner`, **`Lexicon.lexer`**: the lexer of a dialect on a program.
-/

namespace WhitespaceAsm

/-- **A lexer at work**: the rule of its dialect and the place reached. -/
structure Lexer where
  next : UInt8 → Bytes → Token
  scanner : Scanner

namespace Lexer

/-- **The next token**, and the lexer after it. An ill-formed rest is one token, and then the input
ends. -/
def nextToken (l : Lexer) : Token × Lexer :=
  let s := l.scanner.startNext
  match s.rest with
  | b :: rest =>
    let t := l.next b rest
    (t, { l with scanner := s.advanceTo (s.pos.offset + t.text.length) })
  | [] =>
    match s.takeInvalid? with
    | some (t, done) => (t, { l with scanner := done })
    | none => (s.wrap .endOfInput, { l with scanner := s })

/-- Where the token at hand starts. -/
def tokenStart (l : Lexer) : Pos := l.scanner.start

def after (l : Lexer) : Nat → Lexer
  | 0 => l
  | n + 1 => (l.after n).nextToken.2

/-- The token that a call returns after `n` others. -/
def token (l : Lexer) (n : Nat) : Token := (l.after n).nextToken.1

/-- The start of the token that a call returns after `n` others. -/
def start (l : Lexer) (n : Nat) : Pos := (l.after n).nextToken.2.tokenStart

end Lexer

namespace Lexicon

/-- The rule for the first token of a text. -/
def next : Lexicon → UInt8 → Bytes → Token
  | burghard => Burghard.next
  | palaiologos => Palaiologos.next
  | voliva => Voliva.next
  | censoredUsername => CensoredUsername.next
  | wconrad => Wconrad.next
  | wsf => Wsf.next

/-- The scanner over a program. Burghard programs are read by code points, all others by bytes. -/
def scanner : Lexicon → Bytes → Scanner
  | burghard => Scanner.ofChars
  | palaiologos | voliva | censoredUsername | wconrad | wsf => Scanner.ofBytes

/-- **The lexer of a dialect** on a program. -/
def lexer (l : Lexicon) (src : Bytes) : Lexer where
  next := l.next
  scanner := l.scanner src

end Lexicon

end WhitespaceAsm

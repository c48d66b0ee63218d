import WhitespaceAsm.Comment
import WhitespaceAsm.Lexing

/-!
# The tokens of the Burghard dialect

A program is cut into words, spaces, comments and line feeds. Only its longest well-formed start is
read; an ill-formed rest is one token. A double quote groups a word without any other meaning.

* `Burghard.commentStyle`: block comments nest, and line comments inside hide their markers;
* one function per class of tokens: `readComment?`, `readQuoted`, `readWord`;
* **`Burghard.next`**: the first token of a text; `Burghard.lex`: all of them.
-/

namespace WhitespaceAsm.Burghard

def blockOpen : Bytes := [Ascii.leftBrace, Ascii.minus]

def blockClose : Bytes := [Ascii.minus, Ascii.rightBrace]

/-- The longer marker of a line comment. -/
def dashes : Bytes := [Ascii.minus, Ascii.minus]

/-- **The block comments of the dialect.** An opening marker before another minus does not count. -/
def commentStyle : BlockCommentStyle where
  opening := blockOpen
  closing := blockClose
  nested := true
  lineMarkers := [dashes, [Ascii.semicolon]]
  exception := some Ascii.minus

def isSpace (b : UInt8) : Bool := b == Ascii.space || b == Ascii.tab

def atBlockOpen (s : Bytes) : Bool :=
  blockOpen.isPrefixOf s && !(blockOpen ++ [Ascii.minus]).isPrefixOf s

def atWordEnd (s : Bytes) : Bool :=
  match s with
  | [] => true
  | b :: _ =>
    b == Ascii.doubleQuote || b == Ascii.semicolon || isSpace b || b == Ascii.lf
      || dashes.isPrefixOf s || blockClose.isPrefixOf s || atBlockOpen s

/-! ## Classes of tokens -/

def strayClose : Token :=
  .plain blockClose (.blockComment {
    closing := blockClose, nested := true, errors := {.unopened} })

/-- **Reads a comment**, if one begins here. -/
def readComment? (s : Bytes) : Option Token :=
  if s.head? = some Ascii.semicolon then some (Token.lineComment 1 s)
  else if dashes.isPrefixOf s then some (Token.lineComment 2 s)
  else if atBlockOpen s then some (Token.blockComment commentStyle s)
  else if blockClose.isPrefixOf s then some strayClose
  else none

/-- **Reads a quoted word** after its opening quote. It stays on its line. -/
def readQuoted (rest : Bytes) : Token :=
  let word := rest.takeWhile fun b => b != Ascii.doubleQuote && b != Ascii.lf
  let terminated : Bool := (rest.drop word.length).head? = some Ascii.doubleQuote
  .quoted ([Ascii.doubleQuote] ++ word ++ (if terminated then [Ascii.doubleQuote] else []))
    (some (.plain word (.word ∅))) .double terminated

/-- **Reads a word** from its first byte on. -/
def readWord (b : UInt8) (rest : Bytes) : Token :=
  .plain (b :: takeUntil atWordEnd rest) (.word ∅)

/-! ## All tokens -/

/-- **The first token of a well-formed text.** -/
def next (b : UInt8) (rest : Bytes) : Token :=
  match readComment? (b :: rest) with
  | some comment => comment
  | none =>
    if isSpace b then .plain (b :: rest.takeWhile isSpace) .space
    else if b = Ascii.lf then .plain [b] (.lineTerm .lf)
    else if b = Ascii.doubleQuote then readQuoted rest
    else readWord b rest

/-- The token of an ill-formed rest. -/
def invalidTail (rest : Bytes) : List Token :=
  if rest = [] then []
  else [.plain rest (.error .invalidUtf8 (Utf8.decode rest).length)]

/-- **The tokens of a program.** -/
def lex (src : Bytes) : List Token :=
  let n := Utf8.validLength src
  tokenize next (src.take n) ++ invalidTail (src.drop n)

end WhitespaceAsm.Burghard

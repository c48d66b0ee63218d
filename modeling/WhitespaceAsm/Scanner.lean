import WhitespaceAsm.Comment
import WhitespaceAsm.Position
import WhitespaceAsm.Token.Basic

/-!
# Scanners

A scanner is a cursor over a source. It keeps two positions, the start of the token at hand and the
place reached, and moves the second one forward step by step. A scanner over bytes reads the whole
source; a scanner over code points reads its longest well-formed start, and hands out the rest as
one token in the end.

* **`Scanner`**, `Scanner.ofBytes`, `Scanner.ofChars`;
* looking: `atEnd`, `rest`, `text`, `startsWith`, `peekByte?`, `peekByteAt?`, `peekChar?`;
* moving: `startNext`, `backtrack`, `bumpBytes`, `bumpLine`, `bump?`, `nextByte`, `nextChar`,
  `nextUnit`, `bumpByteIf?`, `bumpCharIf?`, `bumpBytesWhile`, `bumpCharsWhile`;
* tokens: `wrap`, `lineComment`, `blockComment`, `takeInvalid?`.
-/

namespace WhitespaceAsm

/-- **A cursor over a source.** -/
structure Scanner where
  source : Bytes
  /-- The offset where scanning stops. -/
  limit : Nat
  columns : ColumnUnit
  /-- The start of the token at hand. -/
  start : Pos := {}
  /-- The place reached. -/
  pos : Pos := {}
deriving Repr

namespace Scanner

/-- A scanner over bytes. -/
def ofBytes (source : Bytes) : Scanner := { source, limit := source.length, columns := .byte }

/-- A scanner over code points. -/
def ofChars (source : Bytes) : Scanner :=
  { source, limit := Utf8.validLength source, columns := .codePoint }

/-- An offset some bytes further on. Offsets are 64-bit words, and a sum beyond them wraps. -/
def offsetAfter (s : Scanner) (n : Nat) : Nat := (s.pos.offset + n) % UInt64.size

/-- The bytes of the source between two offsets, and all from the first on when the second lies
before it. -/
def slice (s : Scanner) (first last : Nat) : Bytes :=
  if last < first then s.source.drop first else (s.source.drop first).take (last - first)

/-! ## Looking -/

/-- Everything up to the limit has been read. -/
def atEnd (s : Scanner) : Bool := s.limit ≤ s.pos.offset

/-- What remains up to the limit. -/
def rest (s : Scanner) : Bytes := (s.source.drop s.pos.offset).take (s.limit - s.pos.offset)

/-- The text of the token at hand. -/
def text (s : Scanner) : Bytes := s.slice s.start.offset s.pos.offset

/-- The rest begins with some bytes. -/
def startsWith (s : Scanner) (marker : Bytes) : Bool := marker.isPrefixOf s.rest

/-- The next byte. -/
def peekByte? (s : Scanner) : Option UInt8 := s.rest.head?

/-- The byte `n` places after the next one. -/
def peekByteAt? (s : Scanner) (n : Nat) : Option UInt8 :=
  if s.offsetAfter n < s.limit then s.source[s.offsetAfter n]? else none

/-- The next unit of the rest, when there is one. -/
def peekUnit? (s : Scanner) : Option Utf8.Unit :=
  if s.atEnd then none else some (Utf8.decode s.rest)

/-- The next code point. -/
def peekChar? (s : Scanner) : Option Nat := s.peekUnit?.map (·.codePoint)

/-- The text of the token at hand is not well-formed. -/
def hasInvalidUtf8 (s : Scanner) : Bool := !Utf8.isValid s.text

/-- Something ill-formed follows what is scanned. -/
def hasInvalidTail (s : Scanner) : Bool := s.limit < s.source.length

/-! ## Moving -/

/-- Moves forward to an offset, at most to the end of the source and never backward. -/
def advanceTo (s : Scanner) (offset : Nat) : Scanner :=
  let passed := (s.source.drop s.pos.offset).take (offset - s.pos.offset)
  { s with pos := s.pos.advance s.columns passed }

/-- The next token starts here. -/
def startNext (s : Scanner) : Scanner := { s with start := s.pos }

/-- Returns to an earlier place. -/
def backtrack (s : Scanner) (pos : Pos) : Scanner := { s with pos }

/-- Takes `n` bytes, at most up to the limit. -/
def bumpBytes (s : Scanner) (n : Nat) : Scanner := s.advanceTo (min (s.offsetAfter n) s.limit)

/-- Takes some bytes if the rest begins with them. -/
def bump? (s : Scanner) (marker : Bytes) : Option Scanner :=
  if s.startsWith marker then some (s.advanceTo (s.pos.offset + marker.length)) else none

/-- Takes the bytes before the next line feed. -/
def bumpLine (s : Scanner) : Bytes × Scanner :=
  let line := takeLine s.rest
  (line, s.advanceTo (s.pos.offset + line.length))

/-- Takes the next byte if it satisfies a condition. -/
def bumpByteIf? (s : Scanner) (p : UInt8 → Bool) : Option Scanner :=
  if s.peekByte?.any p then some (s.advanceTo (s.pos.offset + 1)) else none

/-- Takes the bytes up to the first that fails a condition, and counts them. -/
def bumpBytesWhile (s : Scanner) (p : UInt8 → Bool) : Nat × Scanner :=
  let n := (s.rest.takeWhile p).length
  (n, s.advanceTo (s.pos.offset + n))

/-- Takes the next byte. -/
def nextByte (s : Scanner) : Option UInt8 × Scanner :=
  match s.peekByte? with
  | some b => (some b, s.advanceTo (s.pos.offset + 1))
  | none => (none, s)

/-- Takes the next unit and returns its code point, which is the replacement character for an
ill-formed unit and at the end. -/
def nextUnit (s : Scanner) : Nat × Scanner :=
  match s.peekUnit? with
  | some c => (c.codePoint, s.advanceTo (s.pos.offset + c.length))
  | none => (Utf8.replacement, s)

/-- Takes the next code point. -/
def nextChar (s : Scanner) : Option Nat × Scanner :=
  match s.peekUnit? with
  | some c => (some c.codePoint, s.advanceTo (s.pos.offset + c.length))
  | none => (none, s)

/-- Takes the next code point if it satisfies a condition. -/
def bumpCharIf? (s : Scanner) (p : Nat → Bool) : Option Scanner :=
  match s.peekUnit? with
  | some c => if p c.codePoint then some (s.advanceTo (s.pos.offset + c.length)) else none
  | none => none

/-- Takes the code points up to the first that fails a condition, and counts them. -/
def bumpCharsWhile (s : Scanner) (p : Nat → Bool) : Nat × Scanner :=
  let taken := Utf8.takeUnits (fun c => p c.codePoint) s.rest
  ((Utf8.units taken).length, s.advanceTo (s.pos.offset + taken.length))

/-! ## Tokens -/

/-- The token at hand with a payload. -/
def wrap (s : Scanner) (payload : Payload) : Token := .plain s.text payload

/-- Reads a line comment whose marker has some length. -/
def lineComment (s : Scanner) (markerLength : Nat) : Token × Scanner :=
  let marked := s.bumpBytes markerLength
  let (body, done) := marked.bumpLine
  (done.wrap (.lineComment { marker := s.slice s.pos.offset marked.pos.offset, body }), done)

/-- Reads a block comment from its opening marker on. -/
def blockComment (s : Scanner) (style : BlockCommentStyle) : Token × Scanner :=
  let comment := style.read s.rest
  let done := s.advanceTo (s.pos.offset + comment.text.length)
  (done.wrap (.blockComment comment), done)

/-- Takes the ill-formed rest of the source, once everything before it has been read. -/
def takeInvalid? (s : Scanner) : Option (Token × Scanner) :=
  if s.atEnd && s.hasInvalidTail then
    let length := (Utf8.decode (s.source.drop s.limit)).length
    let done := { s with limit := s.source.length }.advanceTo s.source.length
    some (done.wrap (.error .invalidUtf8 length), done)
  else
    none

end Scanner

end WhitespaceAsm

import WhitespaceAsm.Token.Basic
import WhitespaceAsm.Utf8

/-!
# Comments

* `LineComment.read`: a comment up to the end of the line;
* `BlockCommentStyle`: the markers of block comments and what hides them;
  **`BlockCommentStyle.scan`**: the body of a block comment; `BlockCommentStyle.read`: the comment
  with its markers;
* `Token.lineComment`, `Token.checkedComment`, `Token.blockComment`: the tokens of comments.
-/

namespace WhitespaceAsm

def LineComment.text (c : LineComment) : Bytes := c.marker ++ c.body

/-- **Reads a line comment** whose marker has some length. The line feed is not part of it. -/
def LineComment.read (markerLength : Nat) (s : Bytes) : LineComment where
  marker := s.take markerLength
  body := takeLine (s.drop markerLength)

def BlockComment.text (c : BlockComment) : Bytes := c.opening ++ c.body ++ c.closing

/-- **The shape of the block comments of a dialect.** -/
structure BlockCommentStyle where
  opening : Bytes
  closing : Bytes
  /-- Opening markers inside a comment begin another one. -/
  nested : Bool := false
  /-- Markers of line comments: markers after one do not count until the end of the line. -/
  lineMarkers : List Bytes := []
  /-- A nested opening marker before this byte does not count. -/
  exception : Option UInt8 := none
deriving DecidableEq, Repr

namespace BlockCommentStyle

/-- What follows the opening marker of a block comment. -/
structure Span where
  body : Bytes
  closing : Bytes
  terminated : Bool
deriving DecidableEq, Repr

/-- The span with some bytes before its body. -/
def Span.after (span : Span) (s : Bytes) : Span := { span with body := s ++ span.body }

def opensHere (style : BlockCommentStyle) (s : Bytes) : Bool :=
  style.nested && style.opening.isPrefixOf s &&
    style.exception.all fun b => (s.drop style.opening.length).head? != some b

def lineStartsHere (style : BlockCommentStyle) (s : Bytes) : Bool :=
  style.lineMarkers.any fun marker => marker.isPrefixOf s

/-- **Scans a block comment after its opening marker**, with `depth` more comments open inside it.
A closing marker goes first, then an opening one, then a line comment, and then a single byte. -/
def scan (style : BlockCommentStyle) (depth : Nat) : Bytes → Span
  | [] => ⟨[], [], false⟩
  | b :: rest =>
    if style.closing.isPrefixOf (b :: rest) then
      match depth with
      | 0 => ⟨[], style.closing, true⟩
      | depth + 1 =>
        let n := style.closing.length - 1
        (scan style depth (rest.drop n)).after (b :: rest.take n)
    else if style.opensHere (b :: rest) then
      let n := style.opening.length - 1
      (scan style (depth + 1) (rest.drop n)).after (b :: rest.take n)
    else if style.lineStartsHere (b :: rest) then
      let n := (takeLine rest).length
      (scan style depth (rest.drop n)).after (b :: rest.take n)
    else
      (scan style depth rest).after [b]
termination_by s => s.length
decreasing_by all_goals simp only [List.length_drop, List.length_cons]; omega

/-- **Reads a block comment** from its opening marker on. -/
def read (style : BlockCommentStyle) (s : Bytes) : BlockComment :=
  let span := style.scan 0 (s.drop style.opening.length)
  { opening := s.take style.opening.length
    body := span.body
    closing := span.closing
    nested := style.nested
    terminated := span.terminated }

end BlockCommentStyle

namespace Token

/-- The token of a line comment at the start of a text. -/
def lineComment (markerLength : Nat) (s : Bytes) : Token :=
  let comment := LineComment.read markerLength s
  .plain comment.text (.lineComment comment)

/-- The token of a line comment, flagged when it is not well-formed. -/
def checkedComment (markerLength : Nat) (s : Bytes) : Token :=
  let comment := LineComment.read markerLength s
  .plain comment.text (.lineComment { comment with
    errors := flagIf (¬Utf8.isValid comment.text) .invalidUtf8 })

/-- The token of a block comment at the start of a text. -/
def blockComment (style : BlockCommentStyle) (s : Bytes) : Token :=
  let comment := style.read s
  .plain comment.text (.blockComment comment)

end Token

end WhitespaceAsm

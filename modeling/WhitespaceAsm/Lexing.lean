import WhitespaceAsm.Position
import WhitespaceAsm.Token.Basic

/-!
# From text to tokens

A lexer is a rule that reads the first token of a text that is not empty. Token after token it cuts
the text, and the position of a token follows from the texts before it.

* **`tokenize`**: all tokens of a text under a rule;
* `Located`, `locate`: tokens with their positions; `tokenStarts`: the positions alone.
-/

namespace WhitespaceAsm

/-- **The tokens of a text** under a rule that is given the first byte and the bytes after it. The
text after a token is what its own text leaves, at least the first byte being taken. -/
def tokenize (next : UInt8 → Bytes → Token) : Bytes → List Token
  | [] => []
  | b :: rest =>
    let t := next b rest
    t :: tokenize next (rest.drop (t.text.length - 1))
termination_by s => s.length
decreasing_by simp only [List.length_drop, List.length_cons]; omega

/-- **A token with the position where it starts.** -/
structure Located where
  token : Token
  start : Pos
deriving Repr

/-- The tokens with their positions, the first of them at `p`. -/
def locate (u : ColumnUnit) (p : Pos) : List Token → List Located
  | [] => []
  | t :: ts => ⟨t, p⟩ :: locate u (p.advance u t.text) ts

/-- Where each token starts, and where the input ends. -/
def tokenStarts (u : ColumnUnit) (ts : List Token) : List Pos :=
  (locate u {} (ts ++ [Token.endOfInput])).map (·.start)

end WhitespaceAsm

import WhitespaceAsm.Tree.Reader

/-!
# Dialects with one instruction a line

A line is a head with arguments, or empty, and ends in an optional comment and a token that ends
lines. The dialects differ in their words and in what they make of them.

* `LineRules`: the classes of tokens of a dialect, and how it finishes an instruction;
* **`LineRules.reader`**: how such a dialect reads statements.
-/

namespace WhitespaceAsm

/-- **What a dialect with one instruction a line says about its tokens.** -/
structure LineRules where
  /-- The token stands between words. -/
  separates : Token → Bool
  isWord : Token → Bool
  /-- The token ends a line. -/
  endsLine : Token → Bool
  /-- What becomes of an instruction whose tokens have been read. -/
  finish : Inst → Inst

namespace LineRules

def readInst (r : LineRules) (before : List Token) (head : Token) (ts : List Located) :
    Except ParseError (Inst × List Located) :=
  let read := readArgs r.separates r.isWord [] ts
  match readLineEnd r.endsLine read.rest with
  | .error e => .error e
  | .ok (close, rest) =>
    .ok (r.finish { before, head, args := read.args, after := read.after ++ close }, rest)

/-- **Reads a line.** -/
def readStatement (r : LineRules) (t : Located) (ts : List Located) :
    Except ParseError ParsedStatement :=
  let spaces := (t :: ts).takeWhile (r.separates ·.token)
  let before := spaces.map (·.token)
  match (t :: ts).drop spaces.length with
  | [] => .ok ⟨t.start, .emptyLine (before ++ [Token.endOfInput]), []⟩
  | head :: more =>
    if r.isWord head.token then
      match r.readInst before head.token more with
      | .error e => .error e
      | .ok (i, rest) => .ok ⟨t.start, .inst i, rest⟩
    else
      match readLineEnd r.endsLine (head :: more) with
      | .error e => .error e
      | .ok (close, rest) => .ok ⟨t.start, .emptyLine (before ++ close), rest⟩

theorem readInst_length_le {r : LineRules} {before : List Token} {head : Token}
    {ts rest : List Located} {i : Inst} (h : r.readInst before head ts = .ok (i, rest)) :
    rest.length ≤ ts.length := by
  unfold readInst at h
  simp only at h
  split at h
  · cases h
  · next close more hend =>
    cases h
    have := readLineEnd_length_le hend
    have := rest_readArgs_length_le r.separates r.isWord [] ts
    omega

theorem rest_readStatement_length_le {r : LineRules} {t : Located} {ts : List Located}
    {p : ParsedStatement} (h : r.readStatement t ts = .ok p) : p.rest.length ≤ ts.length := by
  unfold readStatement at h
  simp only at h
  split at h
  · cases h; simp
  · next head more hdrop =>
    have hlen := congrArg List.length hdrop
    simp only [List.length_drop, List.length_cons] at hlen
    split at h
    · split at h
      · cases h
      · next hread => cases h; have := readInst_length_le hread; simp only; omega
    · split at h
      · cases h
      · next hend =>
        cases h
        have := readLineEnd_length_lt hend
        simp only [List.length_cons] at this ⊢
        omega

/-- **How a dialect with one instruction a line reads statements.** -/
def reader (r : LineRules) : StatementReader where
  read := r.readStatement
  rest_length_le := rest_readStatement_length_le

end LineRules

end WhitespaceAsm

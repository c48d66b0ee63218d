import WhitespaceAsm.Lexing
import WhitespaceAsm.Tree.Basic

/-!
# Reading statements from tokens

A parser reads one statement after another from the located tokens of a program. What follows the
last token is the end of the input, which a statement may take as a token.

* `ParseError`;
* `readArgs`: arguments with what separates them; `readLineEnd`: a comment and what ends a line;
* `ParsedStatement`, `StatementReader`, **`StatementReader.readAll`**: all statements of a program.
-/

namespace WhitespaceAsm

/-- Why a program cannot be read. -/
inductive ParseError
  /-- A line ends in a token of another kind than it must. -/
  | expectedLineTerminator (found : TokenKind)
deriving DecidableEq, Repr

def ParseError.message : ParseError → Bytes
  | .expectedLineTerminator found =>
    ascii "expected line terminator, found " ++ ascii found.name

/-! ## Parts of a statement -/

/-- Arguments, what separates the last of them from what follows, and the tokens that follow. -/
structure ReadArgs where
  args : List Arg
  after : List Token
  rest : List Located
deriving Repr

/-- **Reads arguments** with the separators before each, up to the first token that is neither.
`sep` are the separators that have been read already. -/
def readArgs (separates isArg : Token → Bool) (sep : List Token) : List Located → ReadArgs
  | [] => ⟨[], sep, []⟩
  | t :: ts =>
    if separates t.token then readArgs separates isArg (sep ++ [t.token]) ts
    else if isArg t.token then
      let more := readArgs separates isArg [] ts
      { more with args := ⟨sep, t.token⟩ :: more.args }
    else ⟨[], sep, t :: ts⟩

theorem rest_readArgs_length_le (separates isArg : Token → Bool) (sep : List Token)
    (ts : List Located) : (readArgs separates isArg sep ts).rest.length ≤ ts.length := by
  induction ts generalizing sep with
  | nil => simp [readArgs]
  | cons t ts ih =>
    unfold readArgs
    split
    · exact Nat.le_succ_of_le (ih _)
    · split
      · exact Nat.le_succ_of_le (ih _)
      · exact Nat.le_refl _

/-- Takes the first token if it satisfies a condition. -/
def takeToken (p : Token → Bool) : List Located → List Token × List Located
  | [] => ([], [])
  | t :: ts => if p t.token then ([t.token], ts) else ([], t :: ts)

theorem takeToken_length_le (p : Token → Bool) (ts : List Located) :
    (takeToken p ts).2.length ≤ ts.length := by
  cases ts with
  | nil => simp [takeToken]
  | cons t ts => simp only [takeToken]; split <;> simp

/-- **Reads the end of a line**: an optional line comment and a token that may end a line, or the
end of the input. -/
def readLineEnd (ends : Token → Bool) (ts : List Located) :
    Except ParseError (List Token × List Located) :=
  let (comment, rest) := takeToken (·.kind == .lineComment) ts
  match rest with
  | [] => .ok (comment ++ [Token.endOfInput], [])
  | t :: rest =>
    if ends t.token then .ok (comment ++ [t.token], rest)
    else .error (.expectedLineTerminator t.token.kind)

theorem readLineEnd_length_le {ends : Token → Bool} {ts rest : List Located} {line : List Token}
    (h : readLineEnd ends ts = .ok (line, rest)) : rest.length ≤ ts.length := by
  have hle := takeToken_length_le (·.kind == .lineComment) ts
  unfold readLineEnd at h
  split at h
  next comment after heq =>
    rw [heq] at hle
    split at h
    · cases h; simp
    · split at h
      · cases h; simp only [List.length_cons] at hle; omega
      · cases h

/-- The end of a line that is not at the end of the input takes a token. -/
theorem readLineEnd_length_lt {ends : Token → Bool} {t : Located} {ts rest : List Located}
    {line : List Token} (h : readLineEnd ends (t :: ts) = .ok (line, rest)) :
    rest.length < (t :: ts).length := by
  have hle := takeToken_length_le (·.kind == .lineComment) (t :: ts)
  unfold readLineEnd at h
  split at h
  next comment after heq =>
    rw [heq] at hle
    split at h
    · cases h; simp
    · split at h
      · cases h; simp only [List.length_cons] at hle ⊢; omega
      · cases h

/-! ## Statements -/

/-- **A statement that has been read**, where it starts, and the tokens after it. -/
structure ParsedStatement where
  start : Pos
  statement : Statement
  rest : List Located
deriving Repr

/-- **How a dialect reads a statement** from its first token and the tokens after it. -/
structure StatementReader where
  read : Located → List Located → Except ParseError ParsedStatement
  /-- A statement is at least one token. -/
  rest_length_le : ∀ {t ts p}, read t ts = .ok p → p.rest.length ≤ ts.length

/-- **All statements of a program**, each with its position. -/
def StatementReader.readAll (r : StatementReader) :
    List Located → Except ParseError (List (Pos × Statement))
  | [] => .ok []
  | t :: ts =>
    match _h : r.read t ts with
    | .error e => .error e
    | .ok p =>
      match r.readAll p.rest with
      | .error e => .error e
      | .ok more => .ok ((p.start, p.statement) :: more)
termination_by ts => ts.length
decreasing_by exact Nat.lt_succ_of_le (r.rest_length_le _h)

end WhitespaceAsm

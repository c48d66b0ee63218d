import WhitespaceAsm.Palaiologos.Lex
import WhitespaceAsm.Tree.Reader
import WhitespaceAsm.Tree.Resolve

/-!
# The statements of the Palaiologos dialect

An instruction ends at a line feed, a slash, a comment or the end of the input. A label at its head
is a definition on its own. Whatever separates instructions goes to the one that follows; only the
last statement can be without an instruction.

* `markCommas`: commas that do not stand alone between two arguments;
* `resolveInst`: an instruction under the mnemonics of the dialect;
* **`Palaiologos.reader`**, `Palaiologos.statements`.
-/

namespace WhitespaceAsm.Palaiologos

/-! ## Classes of tokens -/

/-- The token can stand before the head of an instruction. -/
def leads (t : Token) : Bool :=
  match t.kind with
  | .argSep | .space | .lineTerm | .instSep | .lineComment => true
  | _ => false

/-- The token separates arguments. -/
def separates (t : Token) : Bool := t.kind == .space || t.kind == .argSep

/-- The token ends an instruction or begins its comment. -/
def endsInst (t : Token) : Bool :=
  match t.kind with
  | .lineTerm | .instSep | .endOfInput | .lineComment => true
  | _ => false

/-- The token ends an instruction for good. -/
def terminates (t : Token) : Bool := t.kind == .lineTerm || t.kind == .instSep

/-! ## Commas -/

/-- A comma with a flag. Other tokens stay. -/
def markComma (error : ArgSepError) (t : Token) : Token :=
  match t with
  | .plain text (.argSep errors) => .plain text (.argSep (errors ∪ {error}))
  | t => t

/-- Every comma is one that does not stand between two arguments. -/
def markStray (ts : List Token) : List Token := ts.map (markComma .notBetweenArguments)

/-- Every comma after the first is one too many. `seen` says that there was one already. -/
def markRepeated (seen : Bool) : List Token → List Token
  | [] => []
  | t :: ts =>
    if t.kind = .argSep then
      (if seen then markComma .multiple t else t) :: markRepeated true ts
    else
      t :: markRepeated seen ts

/-- **Marks the commas of an instruction**: none may stand before the first argument or after the
last, and one between two others. -/
def markCommas (i : Inst) : Inst :=
  { i with
    args := match i.args with
      | [] => []
      | first :: others =>
        { first with sep := markStray first.sep }
          :: others.map fun a => { a with sep := markRepeated false a.sep }
    after := markStray i.after }

/-! ## Statements -/

/-- **Resolves an instruction** whose head is a mnemonic, and checks its arguments. -/
def resolveInst (i : Inst) : Inst :=
  if i.head.kind = .mnemonic then
    let overloads := mnemonics.get? i.head.text
    let resolved := i.resolve overloads
    match Signature.select? (overloads.getD []) i.args.length with
    | some s => { resolved with validTypes := resolved.typesMatch s }
    | none => resolved
  else
    i

/-- Reads the end of an instruction: a comment and what ends it, as far as they are there. -/
def readInstEnd (ts : List Located) : List Token × List Located :=
  let (comment, rest) := takeToken (·.kind == .lineComment) ts
  match rest with
  | [] => (comment ++ [Token.endOfInput], [])
  | t :: more => if terminates t.token then (comment ++ [t.token], more) else (comment, t :: more)

theorem readInstEnd_length_le (ts : List Located) : (readInstEnd ts).2.length ≤ ts.length := by
  have hle := takeToken_length_le (·.kind == .lineComment) ts
  unfold readInstEnd
  split
  next comment rest heq =>
    rw [heq] at hle
    split
    · simp
    · simp only [List.length_cons] at hle
      split <;> simp <;> omega

def readDefinition (before : List Token) (head : Token) (ts : List Located) :
    Inst × List Located :=
  let spaces := ts.takeWhile (·.token.kind == .space)
  let (close, rest) := readInstEnd (ts.drop spaces.length)
  ({ before, head, after := spaces.map (·.token) ++ close }, rest)

def readCall (before : List Token) (head : Token) (ts : List Located) : Inst × List Located :=
  let read := readArgs separates (!endsInst ·) [] ts
  let (close, rest) := readInstEnd read.rest
  (resolveInst (markCommas { before, head, args := read.args, after := read.after ++ close }), rest)

/-- Reads an instruction after what stands before its head. -/
def readInst (before : List Token) (head : Token) (ts : List Located) : Inst × List Located :=
  if head.kind = .label then readDefinition before head ts else readCall before head ts

theorem readInst_length_le (before : List Token) (head : Token) (ts : List Located) :
    (readInst before head ts).2.length ≤ ts.length := by
  unfold readInst
  split
  · simp only [readDefinition]
    refine Nat.le_trans (readInstEnd_length_le _) ?_
    simp
  · simp only [readCall]
    exact Nat.le_trans (readInstEnd_length_le _) (rest_readArgs_length_le _ _ _ _)

/-- **Reads a statement.** It starts at the head of its instruction. -/
def readStatement (t : Located) (ts : List Located) : ParsedStatement :=
  let lead := (t :: ts).takeWhile (leads ·.token)
  let before := markStray (lead.map (·.token))
  match (t :: ts).drop lead.length with
  | [] => ⟨t.start, .emptyLine (before ++ [Token.endOfInput]), []⟩
  | head :: more =>
    let (inst, rest) := readInst before head.token more
    ⟨head.start, .inst inst, rest⟩

theorem rest_readStatement_length_le (t : Located) (ts : List Located) :
    (readStatement t ts).rest.length ≤ ts.length := by
  unfold readStatement
  simp only
  split
  · simp
  · next head more h =>
    have hle := congrArg List.length h
    have hread := readInst_length_le
      (markStray (((t :: ts).takeWhile (leads ·.token)).map (·.token))) head.token more
    simp only [List.length_drop, List.length_cons] at hle
    simp only
    omega

/-- **How the dialect reads statements.** It reads every program. -/
def reader : StatementReader where
  read t ts := .ok (readStatement t ts)
  rest_length_le h := by cases h; exact rest_readStatement_length_le _ _

/-- The statements of a program, each with its position. -/
def statements (src : Bytes) : Except ParseError (List (Pos × Statement)) :=
  reader.readAll (locate .byte {} (lex src))

end WhitespaceAsm.Palaiologos

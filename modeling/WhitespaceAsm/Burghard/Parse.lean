import WhitespaceAsm.Burghard.Lex
import WhitespaceAsm.Burghard.Mnemonics
import WhitespaceAsm.Burghard.OptionNester
import WhitespaceAsm.Burghard.Splice
import WhitespaceAsm.Tree.LineReader
import WhitespaceAsm.Tree.Resolve

/-!
# The statements of the Burghard dialect

Each line is an instruction or empty. The words of an instruction get their types from the overload
that their number selects.

* **`typeArg`**: an argument as the kind that is expected; `typeInst`: an instruction with its
  arguments typed;
* **`Burghard.lineRules`**, `Burghard.statements`.
-/

namespace WhitespaceAsm.Burghard

/-! ## Typing arguments -/

/-- An argument as a string. The quotes of a quoted word become those of the string. -/
def stringArg (t : Token) : Token :=
  match t with
  | .quoted text inner quotes terminated =>
    let literal := (inner.map Token.text).getD []
    .plain text (.string {
      literal, unescaped := literal, quotes, errors := flagIf (¬terminated) .unterminated })
  | t =>
    let literal := t.unwrap.text
    t.retype (.string { literal, unescaped := literal, quotes := .bare })

/-- **An argument as the kind that is expected**, and whether it is of this kind. An underscore
begins a variable, which stands for every kind but a label. An integer is recognised where one is
expected, and without quotes also in the place of a variable. Anything else is a string. -/
def typeArg (kind : ArgKind) (t : Token) : Token × Bool :=
  let text := t.unwrap.text
  let integer := Numeral.parse .haskell text
  if kind = .label then (t.retype (.label { name := text }), true)
  else if text.head? = some Ascii.underscore then
    (t.retype (.variable (text.take 1) (text.drop 1)), true)
  else if (kind = .integer ∨ (kind = .variable ∧ t.kind ≠ .quoted)) ∧ ¬integer.hasError then
    (t.retype (.integer integer), kind = .integer)
  else
    (stringArg t, kind = .string)

/-- The arguments as the kinds that are expected, and whether all are of these kinds. A word that is
expected stays as it is. -/
def typeArgs : List ArgKind → List Arg → List Arg × Bool
  | kind :: kinds, a :: args =>
    let (token, ok) := if kind = .word then (a.token, true) else typeArg kind a.token
    let (args, allOk) := typeArgs kinds args
    ({ a with token } :: args, ok && allOk)
  | _, args => (args, true)

/-- **Resolves an instruction and types its arguments.** The arguments of an unknown mnemonic are
typed as strings, and those of a mnemonic without a fitting overload stay words. -/
def typeInst (i : Inst) : Inst :=
  let overloads := mnemonics.lookup? i.head.unwrap.text
  let resolved := { i with head := i.head.retype (.mnemonic .invalid) }.resolve overloads
  match overloads with
  | none =>
    { resolved with args := i.args.map fun a => { a with token := (typeArg .string a.token).1 } }
  | some signatures =>
    match Signature.select? signatures i.args.length with
    | none => resolved
    | some s =>
      let (args, ok) := typeArgs s.args i.args
      { resolved with args, validTypes := ok }

/-! ## Statements -/

/-- The token is a word, with or without quotes. -/
def isWord (t : Token) : Bool := t.kind == .word || t.kind == .quoted

/-- The token ends a line: a line feed, or an ill-formed rest. -/
def endsLine (t : Token) : Bool :=
  match t with
  | .plain _ (.lineTerm _) | .plain _ (.error .invalidUtf8 _) => true
  | _ => false

/-- **What the dialect says about its lines.** The words of an instruction are put together before
they are typed. -/
def lineRules : LineRules where
  separates := Token.isSpaceLike
  isWord := isWord
  endsLine := endsLine
  finish i :=
    let (head, args) := spliceArgs i.head i.args
    typeInst { i with head, args }

/-- The statements of a program, each with its position. -/
def statements (src : Bytes) : Except ParseError (List (Pos × Statement)) :=
  lineRules.reader.readAll (locate .codePoint {} (lex src))

end WhitespaceAsm.Burghard

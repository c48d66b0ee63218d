import WhitespaceAsm.Tree.LineReader
import WhitespaceAsm.Tree.Resolve
import WhitespaceAsm.Voliva.Lex
import WhitespaceAsm.Voliva.Mnemonics

/-!
# The statements of the voliva dialect

Each line is an instruction or empty. The overload that the number of arguments selects makes
labels and variables of words.

* `typeWord`: a word as the kind that is expected; `typeInst`: an instruction with its words typed;
* **`Voliva.lineRules`**, `Voliva.statements`.
-/

namespace WhitespaceAsm.Voliva

/-- **A word as the kind that is expected**: a label, or after an underscore a variable in the place
of a value. -/
def typeWord (kind : ArgKind) (t : Token) : Token :=
  match t with
  | .plain text (.word _) =>
    if kind = .label then .plain text (.label { name := text })
    else if text.head? = some Ascii.underscore
        ∧ (kind = .variable ∨ kind = .integer ∨ kind = .string) then
      .plain text (.variable (text.take 1) (text.drop 1))
    else t
  | _ => t

def typeArgs : List ArgKind → List Arg → List Arg
  | kind :: kinds, a :: args => { a with token := typeWord kind a.token } :: typeArgs kinds args
  | _, args => args

/-- **Resolves an instruction** whose head is a word, and types its arguments. -/
def typeInst (i : Inst) : Inst :=
  match i.head with
  | .plain text (.word _) =>
    let overloads := mnemonics.lookup? text
    let resolved := { i with head := .plain text (.mnemonic .invalid) }.resolve overloads
    match Signature.select? (overloads.getD []) i.args.length with
    | none => resolved
    | some s =>
      let typed := { resolved with args := typeArgs s.args i.args }
      { typed with validTypes := typed.typesMatch s }
  | _ => i

def isWord (t : Token) : Bool :=
  match t.kind with
  | .word | .integer | .string | .char => true
  | _ => false

/-- **What the dialect says about its lines.** -/
def lineRules : LineRules where
  separates t := t.kind == .space
  isWord := isWord
  endsLine t := t.kind == .lineTerm
  finish := typeInst

/-- The statements of a program, each with its position. -/
def statements (src : Bytes) : Except ParseError (List (Pos × Statement)) :=
  lineRules.reader.readAll (locate .byte {} (lex src))

end WhitespaceAsm.Voliva

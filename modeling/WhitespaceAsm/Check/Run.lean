import WhitespaceAsm.Check.Problem
import WhitespaceAsm.Program

/-!
# Checking a program from the command line

The checker reads a program, prints its tokens or its tree if it is asked to, and lists what is
wrong. Its exit code is zero when nothing is.

* `Check.Options`, `Check.Options.ofArgs`: the command line;
* `Check.Report`, **`Check.report`**: what is printed about a program;
* **`Check.run`**: a whole run, given how files are read.
-/

namespace WhitespaceAsm.Check

/-! ## The command line -/

/-- **What the command line asks for.** -/
structure Options where
  path : Bytes := []
  dialect : Bytes := []
  showTokens : Bool := false
  showTree : Bool := false
  trace : Bool := false
deriving DecidableEq, Repr

inductive Refusal
  | help
  /-- An option or a second file that is not known. -/
  | unexpected (arg : Bytes)
  | noFile
deriving DecidableEq, Repr

/-- **Reads a command line** from left to right. -/
def Options.ofArgs (o : Options) : List Bytes → Except Refusal Options
  | [] => if o.path = [] then .error .noFile else .ok o
  | arg :: args =>
    if arg = ascii "--dialect" ∧ args ≠ [] then
      match args with
      | [] => .error .noFile
      | name :: args => ofArgs { o with dialect := name } args
    else if arg = ascii "--tokens" then ofArgs { o with showTokens := true } args
    else if arg = ascii "--tree" then ofArgs { o with showTree := true } args
    else if arg = ascii "--trace" then ofArgs { o with trace := true } args
    else if arg = ascii "--help" ∨ arg = ascii "-h" then .error .help
    else if arg.head? = some Ascii.minus ∨ o.path ≠ [] then .error (.unexpected arg)
    else ofArgs { o with path := arg } args

/-- The extension of a path: what follows its last dot. -/
def extension? (path : Bytes) : Option Bytes :=
  if Ascii.dot ∈ path then some (path.reverse.takeWhile (· != Ascii.dot)).reverse else none

def dialectOfPath (path : Bytes) : Dialect :=
  ((extension? path).bind Dialect.ofName?).getD .burghard

def Options.chosenDialect (o : Options) : Except Dialect.NameError Dialect :=
  if o.dialect = [] then .ok (dialectOfPath o.path) else Dialect.named o.dialect

/-! ## Reports -/

/-- **What a run leaves behind.** -/
structure Report where
  exitCode : Nat
  out : Bytes := []
  err : Bytes := []
deriving DecidableEq, Repr

def line (s : Bytes) : Bytes := s ++ [Ascii.lf]

/-- A list of lines under a title, after an empty line. -/
def listing (title : String) (items : List Bytes) : Bytes :=
  line [] ++ line (ascii title) ++ items.flatMap fun item => line (ascii "  " ++ item)

def usage (program : Bytes) : Bytes :=
  line (ascii "Usage: " ++ program
    ++ ascii (" [--dialect burghard|palaiologos|voliva] [--tokens] [--tree] [--trace]"
      ++ " <source_file>"))
  ++ line (ascii ("  The dialect defaults to the file extension (.burg, .palo, .voli),"
      ++ " then Burghard."))

/-- An error message with its title. -/
def errorLine (message : Bytes) : Bytes := line (ascii "Error: " ++ message)

/-- **The report on a program**: the parts that are asked for, whether the tree gives the text back,
and the problems. -/
def report (o : Options) (d : Dialect) (src : Bytes) : Except ParseError Report := do
  let tree ← d.parse src
  let trace ← d.trace src
  let tokens := if o.showTokens then listing "Tokens:" ((d.lex src).map Token.describe) else []
  let dump := if o.showTree then line [] ++ line (ascii "Tree:") ++ tree.dump else []
  let roundTrip := tree.source == src
  let problems := (tree.problems 0).map (Problem.render src)
  return {
    exitCode := if roundTrip && !tree.hasError then 0 else 1
    out := line (ascii "Dialect: " ++ ascii d.name) ++ tokens ++ dump
      ++ line [] ++ line (ascii "Round trip: " ++ ascii (if roundTrip then "OK" else "FAILED"))
      ++ (if problems = [] then [] else listing "Errors:" problems)
    err := if o.trace then trace.flatMap line else [] }

/-! ## Runs -/

/-- The report on a command line that asks for no run. -/
def Refusal.report (program : Bytes) : Refusal → Report
  | .help => { exitCode := 0, err := usage program }
  | .unexpected arg =>
    { exitCode := 1, err := errorLine (ascii "Unexpected argument " ++ arg) ++ usage program }
  | .noFile => { exitCode := 1, err := usage program }

/-- A report with nothing but an error message. -/
def failure (message : Bytes) : Report := { exitCode := 1, err := errorLine message }

/-- **A run of the program** under some name. `readFile` gives the bytes of a file that can be
opened. -/
def run {m : Type → Type} [Monad m] (readFile : Bytes → m (Option Bytes)) (program : Bytes)
    (args : List Bytes) : m Report := do
  match Options.ofArgs {} args with
  | .error refusal => return refusal.report program
  | .ok o =>
    match o.chosenDialect with
    | .error e => return failure e.message
    | .ok d =>
      match ← readFile o.path with
      | none => return failure (ascii "Cannot open file " ++ o.path)
      | some src =>
        match report o d src with
        | .error e => return failure e.message
        | .ok r => return r

end WhitespaceAsm.Check

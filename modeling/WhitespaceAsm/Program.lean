import WhitespaceAsm.Burghard.Parse
import WhitespaceAsm.Lexicon
import WhitespaceAsm.Palaiologos.Parse
import WhitespaceAsm.Tree.Dump
import WhitespaceAsm.Voliva.Parse

/-!
# From programs to trees

* `Dialect.lex`, `Dialect.statements`: the tokens and the statements of a program;
* **`Dialect.parse`**: its tree; `Dialect.trace`: a line for each statement.
-/

namespace WhitespaceAsm.Dialect

/-- The tokens of a program. -/
def lex (d : Dialect) (src : Bytes) : List Token := d.lexicon.lex src

/-- The statements of a program in source order, each with its position. -/
def statements : Dialect → Bytes → Except ParseError (List (Pos × Statement))
  | burghard => Burghard.statements
  | palaiologos => Palaiologos.statements
  | voliva => Voliva.statements

/-- The tree of some statements. The option directives of Burghard make blocks. -/
def assemble (d : Dialect) (ss : List Statement) : Node :=
  let nodes := ss.map Node.statement
  .dialect d (some (.block (match d with
    | burghard => Burghard.nestOptions nodes
    | palaiologos | voliva => nodes)))

/-- **The tree of a program.** -/
def parse (d : Dialect) (src : Bytes) : Except ParseError Node :=
  (d.statements src).map fun ss => d.assemble (ss.map (·.2))

/-- A statement with its position on one line. -/
def traceLine (d : Dialect) (pos : Pos) (s : Statement) : Bytes :=
  ascii "[" ++ ascii d.name ++ ascii "] " ++ decimal pos.line ++ ascii ":" ++ decimal pos.column
    ++ ascii " " ++ s.summary

/-- **A line for each statement of a program**, in source order. -/
def trace (d : Dialect) (src : Bytes) : Except ParseError (List Bytes) :=
  (d.statements src).map fun ss => ss.map fun (pos, s) => d.traceLine pos s

end WhitespaceAsm.Dialect

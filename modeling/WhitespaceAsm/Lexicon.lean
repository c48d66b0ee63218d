import WhitespaceAsm.Burghard.Lex
import WhitespaceAsm.Burghard.Mnemonics
import WhitespaceAsm.CensoredUsername
import WhitespaceAsm.Dialect
import WhitespaceAsm.Palaiologos.Lex
import WhitespaceAsm.Voliva.Lex
import WhitespaceAsm.Voliva.Mnemonics
import WhitespaceAsm.Wconrad
import WhitespaceAsm.Wsf

/-!
# Lexicons

Every dialect has a lexicon: how a program is cut into tokens, and which mnemonics there are. Three
dialects have nothing else.

* **`Lexicon`**, `Lexicon.lex`, `Lexicon.lookup?`; `Dialect.lexicon`.
-/

namespace WhitespaceAsm

/-- **The tokens and mnemonics of a dialect.** -/
inductive Lexicon
  | burghard | palaiologos | voliva | censoredUsername | wconrad | wsf
deriving DecidableEq, Repr

namespace Lexicon

/-- **The tokens of a program** in source order. -/
def lex : Lexicon → Bytes → List Token
  | burghard => Burghard.lex
  | palaiologos => Palaiologos.lex
  | voliva => Voliva.lex
  | censoredUsername => CensoredUsername.lex
  | wconrad => Wconrad.lex
  | wsf => Wsf.lex

/-- How mnemonics are folded. -/
def mode : Lexicon → CaseFold
  | burghard => Burghard.mnemonics.mode
  | palaiologos => Palaiologos.mnemonics.mode
  | voliva => Voliva.mnemonics.mode
  | censoredUsername => CensoredUsername.mnemonics.mode
  | wconrad => Wconrad.mnemonics.mode
  | wsf => Wsf.mnemonics.mode

def size : Lexicon → Nat
  | burghard => Burghard.mnemonics.size
  | palaiologos => Palaiologos.mnemonics.size
  | voliva => Voliva.mnemonics.size
  | censoredUsername => CensoredUsername.mnemonics.size
  | wconrad => Wconrad.mnemonics.size
  | wsf => Wsf.mnemonics.size

/-- **The overloads of a mnemonic.** -/
def lookup? : Lexicon → Bytes → Option (List Signature)
  | burghard => Burghard.mnemonics.lookup?
  | palaiologos => Palaiologos.mnemonics.get?
  | voliva => Voliva.mnemonics.lookup?
  | censoredUsername => CensoredUsername.mnemonics.lookup?
  | wconrad => Wconrad.mnemonics.lookup?
  | wsf => Wsf.mnemonics.lookup?

end Lexicon

/-- The lexicon of a dialect with a parser. -/
def Dialect.lexicon : Dialect → Lexicon
  | burghard => .burghard
  | palaiologos => .palaiologos
  | voliva => .voliva

/-- What the columns of a dialect count. -/
def Dialect.columns : Dialect → ColumnUnit
  | burghard => .codePoint
  | palaiologos | voliva => .byte

end WhitespaceAsm

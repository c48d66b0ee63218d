import WhitespaceAsm.Opcode

/-!
# Signatures

A mnemonic has one or more signatures. The number of arguments that are written selects one.

* `ArgKind`: what an argument position accepts; `Signature`: an opcode with its argument kinds;
* **`Signature.select?`**: the overload with as many arguments as were written.
-/

namespace WhitespaceAsm

/-- **What an argument position accepts.** A variable stands for an integer and for a string. -/
inductive ArgKind
  /-- An integer, a character or a variable. -/
  | integer
  /-- A string or a variable. -/
  | string
  /-- A variable alone. -/
  | variable
  /-- A label. -/
  | label
  /-- A word that is not interpreted: the name of an option, the path of a file. -/
  | word
  /-- The mnemonic of another instruction. -/
  | mnemonic
deriving DecidableEq, Repr

namespace ArgKind

/-- Every kind, in order. -/
def all : List ArgKind := [.integer, .string, .variable, .label, .word, .mnemonic]

def name : ArgKind → String
  | .integer => "integer"
  | .string => "string"
  | .variable => "variable"
  | .label => "label"
  | .word => "word"
  | .mnemonic => "mnemonic"

end ArgKind

/-- **One overload of a mnemonic.** -/
structure Signature where
  opcode : Opcode := .invalid
  args : List ArgKind := []
deriving DecidableEq, Repr, Inhabited

namespace Signature

/-- The place of the first overload with `count` arguments. -/
def selectIndex? (overloads : List Signature) (count : Nat) : Option Nat :=
  overloads.findIdx? fun s => s.args.length == count

/-- The first overload with `count` arguments. -/
def select? (overloads : List Signature) (count : Nat) : Option Signature :=
  (selectIndex? overloads count).bind fun i => overloads[i]?

end Signature

end WhitespaceAsm

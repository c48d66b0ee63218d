import WhitespaceAsm.CaseFold

/-!
# Dialects

* **`Dialect`**: the dialects whose programs are parsed into a tree;
* `Dialect.name`, `Dialect.shortName`; `Dialect.ofName?`, `Dialect.named`: a dialect by its name.
-/

namespace WhitespaceAsm

/-- **A dialect whose programs are parsed into a tree.** -/
inductive Dialect
  | burghard | palaiologos | voliva
deriving DecidableEq, Repr, Inhabited

namespace Dialect

def all : List Dialect := [.burghard, .palaiologos, .voliva]

def name : Dialect → String
  | burghard => "Burghard"
  | palaiologos => "Palaiologos"
  | voliva => "voliva"

def shortName : Dialect → String
  | burghard => "burg"
  | palaiologos => "palo"
  | voliva => "voli"

/-- **The dialect with a name**, long or short, in either case. -/
def ofName? (text : Bytes) : Option Dialect :=
  all.find? fun d =>
    CaseFold.ascii.same text (ascii d.name) || CaseFold.ascii.same text (ascii d.shortName)

/-- A name that no dialect has. -/
inductive NameError
  | unknown (text : Bytes)
deriving DecidableEq, Repr

def NameError.message : NameError → Bytes
  | .unknown text => ascii "unknown dialect: " ++ takeUntilZero text

def named (text : Bytes) : Except NameError Dialect :=
  match ofName? text with
  | some d => .ok d
  | none => .error (.unknown text)

end Dialect

end WhitespaceAsm

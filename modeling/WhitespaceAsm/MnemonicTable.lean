import WhitespaceAsm.CaseFold
import WhitespaceAsm.Signature

/-!
# Mnemonic tables

* **`MnemonicTable`**: the overloads of each mnemonic of a dialect, found after case folding;
* `MnemonicTable.add`, `MnemonicTable.ofList`, `MnemonicTable.lookup?`.
-/

namespace WhitespaceAsm

/-- **The mnemonics of a dialect**, folded, each with its overloads. -/
structure MnemonicTable where
  mode : CaseFold
  entries : List (Bytes × List Signature) := []
deriving Repr, Inhabited

namespace MnemonicTable

/-- Why a mnemonic cannot be added. -/
inductive AddError
  /-- A mnemonic with the same folding is there already. -/
  | duplicate (keyword : Bytes)
deriving DecidableEq, Repr

def AddError.message : AddError → Bytes
  | .duplicate keyword => ascii "duplicate mnemonic: " ++ takeUntilZero keyword

/-- The overloads of a mnemonic. -/
def lookup? (t : MnemonicTable) (text : Bytes) : Option (List Signature) :=
  t.entries.lookup (t.mode.fold text)

/-- Adds a mnemonic with all its overloads. -/
def add (t : MnemonicTable) (keyword : Bytes) (overloads : List Signature) :
    Except AddError MnemonicTable :=
  match t.lookup? keyword with
  | none => .ok { t with entries := t.entries ++ [(t.mode.fold keyword, overloads)] }
  | some _ => .error (.duplicate keyword)

/-- The table of some mnemonics. Of two with one folding the first counts. -/
def ofList (mode : CaseFold) (entries : List (Bytes × List Signature)) : MnemonicTable :=
  entries.foldl (fun t e => (t.add e.1 e.2).toOption.getD t) { mode }

def size (t : MnemonicTable) : Nat := t.entries.length

end MnemonicTable

end WhitespaceAsm

/-!
# Opcodes

* **`Opcode`**: the instructions of Whitespace, the extensions and macros of its assembly dialects,
  and the directives of their preprocessors; `Opcode.invalid` stands for a mnemonic that names none;
* `Opcode.name`, `Opcode.all`, `Opcode.isOptionDirective`.
-/

namespace WhitespaceAsm

/-- **What an instruction does.** -/
inductive Opcode
  -- the instructions of Whitespace
  | push | dup | copy | swap | drop | slide | add | sub | mul | div | mod | store | retrieve
  | label | call | jmp | jz | jn | ret | endProgram | printc | printi | readc | readi
  -- extension instructions
  | burghardPrintStack | burghardPrintHeap | volivaOr | volivaNot | volivaAnd | volivaBreakpoint
  -- instructions with a constant operand
  /-- Means `push n` and then `add`. -/
  | addConstRhs
  | subConstRhs | mulConstRhs | divConstRhs | modConstRhs | volivaOrConstRhs | volivaAndConstRhs
  /-- Means `push n`, `swap` and then `store`. -/
  | storeConstLhs
  /-- Means `push n` and then `store`. -/
  | storeConstRhs
  /-- Means `push x`, `push y` and then `store`. -/
  | storeConstConst
  /-- Means `push n` and then `retrieve`. -/
  | retrieveConst
  | printcConst | printiConst | readcConst | readiConst
  -- predefined macros
  | pushString0 | storeString0 | burghardJmpP | burghardJmpNP | burghardJmpNZ | burghardJmpPZ
  | volivaJmpP | volivaJmpNP | volivaJmpNZ | volivaJmpPZ
  /-- Means `dup`, `push n` and then `sub`. -/
  | burghardTest
  /-- A stack instruction repeated `n` times. -/
  | palaiologosRep
  -- preprocessor directives
  | burghardInclude | volivaInclude | defineOption | ifOption | elseIfOption | elseOption
  | endOption
  -- data
  | burghardValueInteger | burghardValueString | volivaValueInteger | volivaValueString
  /-- No instruction. -/
  | invalid
deriving DecidableEq, Repr

instance : Inhabited Opcode := ⟨.invalid⟩

namespace Opcode

/-- Every opcode, in order. -/
def all : List Opcode :=
  [.push, .dup, .copy, .swap, .drop, .slide, .add, .sub, .mul, .div, .mod, .store, .retrieve,
   .label, .call, .jmp, .jz, .jn, .ret, .endProgram, .printc, .printi, .readc, .readi,
   .burghardPrintStack, .burghardPrintHeap, .volivaOr, .volivaNot, .volivaAnd, .volivaBreakpoint,
   .addConstRhs, .subConstRhs, .mulConstRhs, .divConstRhs, .modConstRhs, .volivaOrConstRhs,
   .volivaAndConstRhs, .storeConstLhs, .storeConstRhs, .storeConstConst, .retrieveConst,
   .printcConst, .printiConst, .readcConst, .readiConst, .pushString0, .storeString0,
   .burghardJmpP, .burghardJmpNP, .burghardJmpNZ, .burghardJmpPZ, .volivaJmpP, .volivaJmpNP,
   .volivaJmpNZ, .volivaJmpPZ, .burghardTest, .palaiologosRep, .burghardInclude, .volivaInclude,
   .defineOption, .ifOption, .elseIfOption, .elseOption, .endOption, .burghardValueInteger,
   .burghardValueString, .volivaValueInteger, .volivaValueString, .invalid]

def name : Opcode → String
  | push => "Push"
  | dup => "Dup"
  | copy => "Copy"
  | swap => "Swap"
  | drop => "Drop"
  | slide => "Slide"
  | add => "Add"
  | sub => "Sub"
  | mul => "Mul"
  | div => "Div"
  | mod => "Mod"
  | store => "Store"
  | retrieve => "Retrieve"
  | label => "Label"
  | call => "Call"
  | jmp => "Jmp"
  | jz => "Jz"
  | jn => "Jn"
  | ret => "Ret"
  | endProgram => "End"
  | printc => "Printc"
  | printi => "Printi"
  | readc => "Readc"
  | readi => "Readi"
  | burghardPrintStack => "BurghardPrintStack"
  | burghardPrintHeap => "BurghardPrintHeap"
  | volivaOr => "VolivaOr"
  | volivaNot => "VolivaNot"
  | volivaAnd => "VolivaAnd"
  | volivaBreakpoint => "VolivaBreakpoint"
  | addConstRhs => "AddConstRhs"
  | subConstRhs => "SubConstRhs"
  | mulConstRhs => "MulConstRhs"
  | divConstRhs => "DivConstRhs"
  | modConstRhs => "ModConstRhs"
  | volivaOrConstRhs => "VolivaOrConstRhs"
  | volivaAndConstRhs => "VolivaAndConstRhs"
  | storeConstLhs => "StoreConstLhs"
  | storeConstRhs => "StoreConstRhs"
  | storeConstConst => "StoreConstConst"
  | retrieveConst => "RetrieveConst"
  | printcConst => "PrintcConst"
  | printiConst => "PrintiConst"
  | readcConst => "ReadcConst"
  | readiConst => "ReadiConst"
  | pushString0 => "PushString0"
  | storeString0 => "StoreString0"
  | burghardJmpP => "BurghardJmpP"
  | burghardJmpNP => "BurghardJmpNP"
  | burghardJmpNZ => "BurghardJmpNZ"
  | burghardJmpPZ => "BurghardJmpPZ"
  | volivaJmpP => "VolivaJmpP"
  | volivaJmpNP => "VolivaJmpNP"
  | volivaJmpNZ => "VolivaJmpNZ"
  | volivaJmpPZ => "VolivaJmpPZ"
  | burghardTest => "BurghardTest"
  | palaiologosRep => "PalaiologosRep"
  | burghardInclude => "BurghardInclude"
  | volivaInclude => "VolivaInclude"
  | defineOption => "DefineOption"
  | ifOption => "IfOption"
  | elseIfOption => "ElseIfOption"
  | elseOption => "ElseOption"
  | endOption => "EndOption"
  | burghardValueInteger => "BurghardValueInteger"
  | burghardValueString => "BurghardValueString"
  | volivaValueInteger => "VolivaValueInteger"
  | volivaValueString => "VolivaValueString"
  | invalid => "Invalid"

/-- The opcode opens, continues or closes an option block. -/
def isOptionDirective : Opcode → Bool
  | ifOption | elseIfOption | elseOption | endOption => true
  | _ => false

end Opcode

end WhitespaceAsm

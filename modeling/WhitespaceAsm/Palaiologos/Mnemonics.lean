import WhitespaceAsm.ByteTrie
import WhitespaceAsm.Signature

/-!
# The mnemonics of the Palaiologos dialect

Several spellings stand for one instruction. Arithmetic, heap and output instructions take optional
constants, and nothing needs to separate a mnemonic from its argument.

* **`Palaiologos.mnemonics`**.
-/

namespace WhitespaceAsm.Palaiologos

/-- **The mnemonics of the dialect**, in either case. -/
def mnemonics : ByteTrie (List Signature) :=
  ByteTrie.ofList .ascii [
    -- stack
    (ascii "psh", [⟨.push, [.integer]⟩]),
    (ascii "push", [⟨.push, [.integer]⟩]),
    (ascii "dup", [⟨.dup, []⟩]),
    (ascii "copy", [⟨.copy, [.integer]⟩]),
    (ascii "take", [⟨.copy, [.integer]⟩]),
    (ascii "pull", [⟨.copy, [.integer]⟩]),
    (ascii "xchg", [⟨.swap, []⟩]),
    (ascii "swp", [⟨.swap, []⟩]),
    (ascii "swap", [⟨.swap, []⟩]),
    (ascii "drop", [⟨.drop, []⟩]),
    (ascii "dsc", [⟨.drop, []⟩]),
    (ascii "slide", [⟨.slide, [.integer]⟩]),
    -- arithmetic
    (ascii "add", [⟨.add, []⟩, ⟨.addConstRhs, [.integer]⟩]),
    (ascii "sub", [⟨.sub, []⟩, ⟨.subConstRhs, [.integer]⟩]),
    (ascii "mul", [⟨.mul, []⟩, ⟨.mulConstRhs, [.integer]⟩]),
    (ascii "div", [⟨.div, []⟩, ⟨.divConstRhs, [.integer]⟩]),
    (ascii "mod", [⟨.mod, []⟩, ⟨.modConstRhs, [.integer]⟩]),
    -- heap
    (ascii "sto", [⟨.store, []⟩, ⟨.storeConstRhs, [.integer]⟩,
      ⟨.storeConstConst, [.integer, .integer]⟩]),
    (ascii "rcl", [⟨.retrieve, []⟩, ⟨.retrieveConst, [.integer]⟩]),
    -- control flow
    (ascii "call", [⟨.call, [.label]⟩]),
    (ascii "gosub", [⟨.call, [.label]⟩]),
    (ascii "jsr", [⟨.call, [.label]⟩]),
    (ascii "jmp", [⟨.jmp, [.label]⟩]),
    (ascii "j", [⟨.jmp, [.label]⟩]),
    (ascii "b", [⟨.jmp, [.label]⟩]),
    (ascii "jz", [⟨.jz, [.label]⟩]),
    (ascii "bz", [⟨.jz, [.label]⟩]),
    (ascii "jltz", [⟨.jn, [.label]⟩]),
    (ascii "bltz", [⟨.jn, [.label]⟩]),
    (ascii "ret", [⟨.ret, []⟩]),
    (ascii "end", [⟨.endProgram, []⟩]),
    -- input and output
    (ascii "putc", [⟨.printc, []⟩, ⟨.printcConst, [.integer]⟩]),
    (ascii "putn", [⟨.printi, []⟩, ⟨.printiConst, [.integer]⟩]),
    (ascii "getc", [⟨.readc, []⟩, ⟨.readcConst, [.integer]⟩]),
    (ascii "getn", [⟨.readi, []⟩, ⟨.readiConst, [.integer]⟩]),
    -- macros
    (ascii "rep", [⟨.palaiologosRep, [.mnemonic, .integer]⟩])]

end WhitespaceAsm.Palaiologos

import WhitespaceAsm.MnemonicTable

/-!
# The mnemonics of the Burghard dialect

Arithmetic and heap instructions take an optional constant. Case does not count, not even that of
the dotted capital I and of the Kelvin sign.

* **`Burghard.mnemonics`**.
-/

namespace WhitespaceAsm.Burghard

/-- **The mnemonics of the dialect.** -/
def mnemonics : MnemonicTable :=
  MnemonicTable.ofList .asciiIK [
    -- stack
    (ascii "push", [⟨.push, [.integer]⟩]),
    (ascii "pushs", [⟨.pushString0, [.string]⟩]),
    (ascii "doub", [⟨.dup, []⟩]),
    (ascii "swap", [⟨.swap, []⟩]),
    (ascii "pop", [⟨.drop, []⟩]),
    -- arithmetic
    (ascii "add", [⟨.add, []⟩, ⟨.addConstRhs, [.integer]⟩]),
    (ascii "sub", [⟨.sub, []⟩, ⟨.subConstRhs, [.integer]⟩]),
    (ascii "mul", [⟨.mul, []⟩, ⟨.mulConstRhs, [.integer]⟩]),
    (ascii "div", [⟨.div, []⟩, ⟨.divConstRhs, [.integer]⟩]),
    (ascii "mod", [⟨.mod, []⟩, ⟨.modConstRhs, [.integer]⟩]),
    (ascii "test", [⟨.burghardTest, [.integer]⟩]),
    -- heap
    (ascii "store", [⟨.store, []⟩, ⟨.storeConstLhs, [.integer]⟩]),
    (ascii "retrive", [⟨.retrieve, []⟩, ⟨.retrieveConst, [.integer]⟩]),
    (ascii "valueinteger", [⟨.burghardValueInteger, [.variable, .integer]⟩]),
    (ascii "valuestring", [⟨.burghardValueString, [.variable, .string]⟩]),
    -- control flow
    (ascii "label", [⟨.label, [.label]⟩]),
    (ascii "call", [⟨.call, [.label]⟩]),
    (ascii "jump", [⟨.jmp, [.label]⟩]),
    (ascii "jumpz", [⟨.jz, [.label]⟩]),
    (ascii "jumpn", [⟨.jn, [.label]⟩]),
    (ascii "jumpp", [⟨.burghardJmpP, [.label]⟩]),
    (ascii "jumpnp", [⟨.burghardJmpNP, [.label]⟩]),
    (ascii "jumppn", [⟨.burghardJmpNP, [.label]⟩]),
    (ascii "jumpnz", [⟨.burghardJmpNZ, [.label]⟩]),
    (ascii "jumppz", [⟨.burghardJmpPZ, [.label]⟩]),
    (ascii "ret", [⟨.ret, []⟩]),
    (ascii "exit", [⟨.endProgram, []⟩]),
    -- input and output
    (ascii "outC", [⟨.printc, []⟩]),
    (ascii "outN", [⟨.printi, []⟩]),
    (ascii "inC", [⟨.readc, []⟩]),
    (ascii "inN", [⟨.readi, []⟩]),
    (ascii "debug_printstack", [⟨.burghardPrintStack, []⟩]),
    (ascii "debug_printheap", [⟨.burghardPrintHeap, []⟩]),
    -- preprocessor
    (ascii "include", [⟨.burghardInclude, [.word]⟩]),
    (ascii "option", [⟨.defineOption, [.word]⟩]),
    (ascii "ifoption", [⟨.ifOption, [.word]⟩]),
    (ascii "elseifoption", [⟨.elseIfOption, [.word]⟩]),
    (ascii "elseoption", [⟨.elseOption, []⟩]),
    (ascii "endoption", [⟨.endOption, []⟩])]

end WhitespaceAsm.Burghard

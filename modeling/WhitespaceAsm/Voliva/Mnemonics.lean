import WhitespaceAsm.MnemonicTable

/-!
# The mnemonics of the voliva dialect

* **`Voliva.mnemonics`**.
-/

namespace WhitespaceAsm.Voliva

/-- **The mnemonics of the dialect**, in lower case. -/
def mnemonics : MnemonicTable :=
  MnemonicTable.ofList .exact [
    -- stack
    (ascii "push", [⟨.push, [.integer]⟩]),
    (ascii "dup", [⟨.dup, []⟩]),
    (ascii "copy", [⟨.copy, [.integer]⟩]),
    (ascii "swap", [⟨.swap, []⟩]),
    (ascii "pop", [⟨.drop, []⟩]),
    (ascii "slide", [⟨.slide, [.integer]⟩]),
    -- arithmetic and bits
    (ascii "add", [⟨.add, []⟩, ⟨.addConstRhs, [.integer]⟩]),
    (ascii "sub", [⟨.sub, []⟩, ⟨.subConstRhs, [.integer]⟩]),
    (ascii "mul", [⟨.mul, []⟩, ⟨.mulConstRhs, [.integer]⟩]),
    (ascii "div", [⟨.div, []⟩, ⟨.divConstRhs, [.integer]⟩]),
    (ascii "mod", [⟨.mod, []⟩, ⟨.modConstRhs, [.integer]⟩]),
    (ascii "or", [⟨.volivaOr, []⟩, ⟨.volivaOrConstRhs, [.integer]⟩]),
    (ascii "not", [⟨.volivaNot, []⟩]),
    (ascii "and", [⟨.volivaAnd, []⟩, ⟨.volivaAndConstRhs, [.integer]⟩]),
    -- heap
    (ascii "store", [⟨.store, []⟩, ⟨.storeConstLhs, [.integer]⟩]),
    (ascii "storestr", [⟨.storeString0, [.string]⟩]),
    (ascii "retrieve", [⟨.retrieve, []⟩, ⟨.retrieveConst, [.integer]⟩]),
    -- control flow
    (ascii "label", [⟨.label, [.label]⟩]),
    (ascii "call", [⟨.call, [.label]⟩]),
    (ascii "jump", [⟨.jmp, [.label]⟩]),
    (ascii "jumpz", [⟨.jz, [.label]⟩]),
    (ascii "jumpn", [⟨.jn, [.label]⟩]),
    (ascii "jumpp", [⟨.volivaJmpP, [.label]⟩]),
    (ascii "jumppn", [⟨.volivaJmpNP, [.label]⟩]),
    (ascii "jumpnp", [⟨.volivaJmpNP, [.label]⟩]),
    (ascii "jumpnz", [⟨.volivaJmpNZ, [.label]⟩]),
    (ascii "jumppz", [⟨.volivaJmpPZ, [.label]⟩]),
    (ascii "ret", [⟨.ret, []⟩]),
    (ascii "exit", [⟨.endProgram, []⟩]),
    -- input and output
    (ascii "outn", [⟨.printi, []⟩]),
    (ascii "outc", [⟨.printc, []⟩]),
    (ascii "readn", [⟨.readi, []⟩]),
    (ascii "readc", [⟨.readc, []⟩]),
    -- macros
    (ascii "valueinteger", [⟨.volivaValueInteger, [.variable, .integer]⟩]),
    (ascii "valuestring", [⟨.volivaValueString, [.variable, .string]⟩]),
    (ascii "dbg", [⟨.volivaBreakpoint, []⟩]),
    (ascii "include", [⟨.volivaInclude, [.string]⟩])]

end WhitespaceAsm.Voliva

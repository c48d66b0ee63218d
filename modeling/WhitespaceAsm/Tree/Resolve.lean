import WhitespaceAsm.Tree.Basic

/-!
# Overload resolution

The number of arguments that are written selects the overload of a mnemonic; their kinds are then
compared with those that it expects.

* `Token.setOpcode`: a mnemonic with another opcode;
* **`Inst.resolve`**: the instruction under the overloads of its head;
* `Inst.typesMatch`: the arguments are of the kinds that a signature expects.
-/

namespace WhitespaceAsm

/-- The mnemonic that a token stands for gets an opcode; a token that stands for none stays. -/
def Token.setOpcode (opcode : Opcode) (t : Token) : Token :=
  match t.unwrap.payload? with
  | some (.mnemonic _) => t.retype (.mnemonic opcode)
  | _ => t

namespace Inst

/-- **Resolves an instruction** under the overloads of its head. The head gets the opcode of the
overload with as many arguments as are written, or of the first one where there is none, which is
then an error. Without overloads nothing is resolved and nothing is wrong. -/
def resolve (i : Inst) (overloads : Option (List Signature)) : Inst :=
  match overloads with
  | none | some [] => { i with validArity := true, validTypes := true }
  | some (first :: others) =>
    match Signature.select? (first :: others) i.args.length with
    | some s =>
      { i with head := i.head.setOpcode s.opcode, validArity := true, validTypes := true }
    | none =>
      { i with head := i.head.setOpcode first.opcode, validArity := false, validTypes := false }

/-- **The arguments are of the kinds that a signature expects.** -/
def typesMatch (i : Inst) (s : Signature) : Bool :=
  i.args.length == s.args.length &&
    (i.args.zip s.args).all fun (a, kind) => a.token.matchesKind kind

end Inst

end WhitespaceAsm

import WhitespaceAsm.Bytes

/-!
# Case folding

Mnemonics are compared after folding. Capital letters become small, and in two modes one or two
letters outside ASCII fold to a small Latin letter. Each folded byte stands for one to three bytes
of the text.

* `CaseFold`, `CaseFold.next`: the modes, and the first folded byte of a text;
* **`CaseFold.fold`**, `CaseFold.same`: the folded text, and comparison after folding;
* **`CaseFold.matchLength?`**: how many bytes of a text fold to a given start.
-/

namespace WhitespaceAsm

/-- **How letters are folded before they are compared.** -/
inductive CaseFold
  | exact
  /-- `A` to `Z` become `a` to `z`. -/
  | ascii
  /-- As `ascii`, and KELVIN SIGN becomes `k`. -/
  | asciiK
  /-- As `asciiK`, and LATIN CAPITAL LETTER I WITH DOT ABOVE becomes `i`. -/
  | asciiIK
deriving DecidableEq, Repr, Inhabited

namespace CaseFold

/-- A folded byte and the number of bytes of the text that it stands for. -/
structure FoldedByte where
  byte : UInt8
  length : Nat
deriving DecidableEq, Repr

/-- U+212A, which folds to `k`. -/
def kelvinSign : Bytes := [0xE2, 0x84, 0xAA]

/-- U+0130, which folds to `i`. -/
def capitalIWithDot : Bytes := [0xC4, 0xB0]

/-- The mode folds KELVIN SIGN. -/
def foldsKelvin : CaseFold → Bool
  | asciiK | asciiIK => true
  | exact | ascii => false

/-- The mode folds LATIN CAPITAL LETTER I WITH DOT ABOVE. -/
def foldsDottedI : CaseFold → Bool
  | asciiIK => true
  | exact | ascii | asciiK => false

/-- The first folded byte of the text `b :: rest`. -/
def next (mode : CaseFold) (b : UInt8) (rest : Bytes) : FoldedByte :=
  if mode = exact then ⟨b, 1⟩
  else if Ascii.isUpper b then ⟨Ascii.toLower b, 1⟩
  else if mode.foldsKelvin && kelvinSign.isPrefixOf (b :: rest) then ⟨0x6B, kelvinSign.length⟩
  else if mode.foldsDottedI && capitalIWithDot.isPrefixOf (b :: rest) then
    ⟨0x69, capitalIWithDot.length⟩
  else ⟨b, 1⟩

/-- **The folded text.** -/
def fold (mode : CaseFold) : Bytes → Bytes
  | [] => []
  | b :: rest =>
    let f := mode.next b rest
    f.byte :: fold mode (rest.drop (f.length - 1))
termination_by s => s.length
decreasing_by simp only [List.length_drop, List.length_cons]; omega

/-- The texts are the same after folding. -/
def same (mode : CaseFold) (a b : Bytes) : Bool := mode.fold a == mode.fold b

/-- **The number of bytes of a text whose folding is `start`**, when its folding begins that way.
`start` is folded already. -/
def matchLength? (mode : CaseFold) : (s start : Bytes) → Option Nat
  | _, [] => some 0
  | [], _ :: _ => none
  | b :: rest, want :: wants =>
    let f := mode.next b rest
    if f.byte = want then
      (matchLength? mode (rest.drop (f.length - 1)) wants).map (f.length + ·)
    else
      none

end CaseFold

end WhitespaceAsm

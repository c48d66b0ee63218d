/-!
# Sets of numbered flags

A set of flags is a number whose bits are its members, so that a set keeps bits that no flag names.

* `Flag`: a finite type whose members are numbered in a fixed order;
* **`FlagSet`**: sets of them, with the usual set operations, `first?`, `toList` and `flagIf`.
-/

namespace WhitespaceAsm

/-- A type whose members are listed in a fixed order and have one bit each. -/
class Flag (ε : Type) where
  all : List ε
  /-- The bit of a member, counted from zero. -/
  bit : ε → Nat

/-- **A set of flags**, one bit each. -/
structure FlagSet (ε : Type) where
  bits : Nat
deriving DecidableEq, Repr

namespace FlagSet

variable {ε : Type}

instance : EmptyCollection (FlagSet ε) := ⟨⟨0⟩⟩

instance : Inhabited (FlagSet ε) := ⟨∅⟩

instance : Union (FlagSet ε) := ⟨fun s t => ⟨s.bits ||| t.bits⟩⟩

instance : Inter (FlagSet ε) := ⟨fun s t => ⟨s.bits &&& t.bits⟩⟩

/-- The set has no member and no unnamed bit. -/
def isEmpty (s : FlagSet ε) : Bool := s.bits == 0

variable [Flag ε]

instance : Singleton ε (FlagSet ε) := ⟨fun f => ⟨1 <<< Flag.bit f⟩⟩

instance : Insert ε (FlagSet ε) := ⟨fun f s => {f} ∪ s⟩

instance : Membership ε (FlagSet ε) := ⟨fun s f => s.bits.testBit (Flag.bit f) = true⟩

instance (f : ε) (s : FlagSet ε) : Decidable (f ∈ s) :=
  inferInstanceAs (Decidable (s.bits.testBit (Flag.bit f) = true))

/-- The set of the flags in a list. -/
def ofList (fs : List ε) : FlagSet ε := fs.foldr insert ∅

def toList (s : FlagSet ε) : List ε := Flag.all.filter (· ∈ s)

def first? (s : FlagSet ε) : Option ε := (Flag.all : List ε).find? (· ∈ s)

end FlagSet

/-- The flag alone when the condition holds, and no flag otherwise. -/
def flagIf {ε : Type} [Flag ε] (c : Prop) [Decidable c] (f : ε) : FlagSet ε :=
  if c then {f} else ∅

end WhitespaceAsm

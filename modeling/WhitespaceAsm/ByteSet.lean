/-!
# Sets of bytes

* **`ByteSet`**: one bit per byte value, in four words, with `insert` and membership;
* **`ByteSet.rank`**: how many members are less than a byte; `ByteSet.size`.
-/

namespace WhitespaceAsm

/-- **A set of bytes**, one bit per byte value. -/
structure ByteSet where
  words : Vector UInt64 4
deriving DecidableEq, Repr

/-- The number of bits that are set in a word. -/
def popCount (w : UInt64) : Nat := (List.range 64).countP fun i => w.toNat.testBit i

/-- The number of bits that are set in some words. -/
def popCounts : List UInt64 → Nat
  | [] => 0
  | w :: ws => popCount w + popCounts ws

namespace ByteSet

instance : EmptyCollection ByteSet := ⟨⟨.replicate 4 0⟩⟩

instance : Inhabited ByteSet := ⟨∅⟩

/-- The place of the word that has the bit of a byte. -/
def wordIndex (b : UInt8) : Fin 4 := ⟨b.toNat / 64, by have := b.toNat_lt; omega⟩

/-- The place of the bit of a byte in its word. -/
def bitIndex (b : UInt8) : UInt64 := b.toUInt64 % 64

/-- The word that has the bit of a byte. -/
def word (s : ByteSet) (b : UInt8) : UInt64 := s.words[wordIndex b]

def contains (s : ByteSet) (b : UInt8) : Bool := (s.word b >>> bitIndex b) &&& 1 != 0

instance : Membership UInt8 ByteSet := ⟨fun s b => s.contains b = true⟩

instance (b : UInt8) (s : ByteSet) : Decidable (b ∈ s) :=
  inferInstanceAs (Decidable (s.contains b = true))

def insert (s : ByteSet) (b : UInt8) : ByteSet :=
  ⟨s.words.set (wordIndex b) (s.word b ||| (1 <<< bitIndex b))⟩

/-- **The number of members less than a byte**: the bits of the words before its own, and those
before its bit. -/
def rank (s : ByteSet) (b : UInt8) : Nat :=
  let before := popCounts (s.words.toList.take (wordIndex b))
  if bitIndex b = 0 then before else before + popCount (s.word b &&& ((1 <<< bitIndex b) - 1))

def size (s : ByteSet) : Nat := popCounts s.words.toList

end ByteSet

end WhitespaceAsm

import WhitespaceAsm.ByteSet
import WhitespaceAsm.CaseFold

/-!
# Tries of keywords

A keyword that nothing separates from what follows it is found as the longest keyword that starts
the input. The keywords are kept folded in a prefix tree over a list of entries. A branch has its
children in a row, one for each byte of a set, and finds a child by the rank of its byte; a chain
with a single keyword below it is stored as a leaf with the rest of the keyword.

* `ByteTrie.Node`, **`ByteTrie.Node.insertAt`**: the tree, and one more keyword in it;
* `ByteTrie`, `ByteTrie.insert`, `ByteTrie.ofList`;
* **`ByteTrie.get?`**: the value of a keyword; **`ByteTrie.longestMatch?`**: the longest keyword
  that starts a text.
-/

namespace WhitespaceAsm

namespace ByteTrie

/-- **A place in the tree.** A branch has one child for each byte of its set, in the order of the
bytes, and the entry of the keyword that ends there; a leaf is a whole chain without branching. -/
inductive Node
  | branch (set : ByteSet) (children : List Node) (terminal : Option Nat)
  | leaf (tail : Bytes) (entry : Nat)

inductive InsertError
  /-- A keyword with the same folding is there already. -/
  | conflictingKeys
deriving DecidableEq, Repr

def InsertError.message : InsertError → Bytes
  | .conflictingKeys => ascii "conflicting keys"

/-- An error, and what the insertion that throws it leaves behind. -/
structure Thrown (σ : Type) where
  error : InsertError
  left : σ

def Thrown.message {σ : Type} (t : Thrown σ) : Bytes := t.error.message

namespace Node

def empty : Node := branch ∅ [] none

def isLeaf : Node → Bool
  | leaf _ _ => true
  | branch _ _ _ => false

/-- The branch that a leaf becomes before another keyword is added. -/
def split : Bytes → Nat → Node
  | [], entry => branch ∅ [] (some entry)
  | b :: tail, entry => branch (ByteSet.insert ∅ b) [leaf tail entry] none

/-- The child at a byte of the set. -/
def child? (set : ByteSet) (children : List Node) (b : UInt8) : Option Node :=
  if b ∈ set then some (children.getD (set.rank b) empty) else none

/-- **Adds a folded keyword below a node.** A leaf is split first, unless it has this keyword. A
child changes in its place, also when an error comes out of it, and a new one goes in by the rank of
its byte. -/
def insertAt (key : Bytes) (entry : Nat) (n : Node) : Except (Thrown Node) Node :=
  match n with
  | leaf tail old =>
    if tail = key then .error ⟨.conflictingKeys, n⟩ else insertAt key entry (split tail old)
  | branch set children terminal =>
    match key with
    | [] =>
      match terminal with
      | some _ => .error ⟨.conflictingKeys, n⟩
      | none => .ok (branch set children (some entry))
    | b :: rest =>
      let i := set.rank b
      match child? set children b with
      | some child =>
        match insertAt rest entry child with
        | .ok child => .ok (branch set (children.set i child) terminal)
        | .error thrown => .error ⟨thrown.error, branch set (children.set i thrown.left) terminal⟩
      | none => .ok (branch (set.insert b) (children.insertIdx i (leaf rest entry)) terminal)
termination_by 2 * key.length + n.isLeaf.toNat
decreasing_by
  · cases tail <;> simp [split, isLeaf]
  · have := Bool.toNat_le child.isLeaf
    simp only [List.length_cons]
    omega

end Node

/-- A keyword found at the start of a text. -/
structure Match (α : Type) where
  value : α
  /-- The number of bytes of the text that the keyword covers, before folding. -/
  length : Nat
deriving DecidableEq, Repr

namespace Node

/-- The entry of the keyword below a node that the whole text folds to. -/
def get? (mode : CaseFold) : Node → Bytes → Option Nat
  | leaf tail entry, s => if mode.matchLength? s tail = some s.length then some entry else none
  | branch _ _ terminal, [] => terminal
  | branch set children _, b :: rest =>
    let f := mode.next b rest
    match child? set children f.byte with
    | none => none
    | some child => child.get? mode (rest.drop (f.length - 1))
termination_by _ s => s.length
decreasing_by simp only [List.length_drop, List.length_cons]; omega

/-- The entry of the longest keyword below a node that starts the folded text. -/
def longestMatch? (mode : CaseFold) : Node → Bytes → Option (Match Nat)
  | leaf tail entry, s => (mode.matchLength? s tail).map (⟨entry, ·⟩)
  | branch _ _ terminal, [] => terminal.map (⟨·, 0⟩)
  | branch set children terminal, b :: rest =>
    let f := mode.next b rest
    let longer := match child? set children f.byte with
      | none => none
      | some child => child.longestMatch? mode (rest.drop (f.length - 1))
    match longer with
    | some found => some ⟨found.value, f.length + found.length⟩
    | none => terminal.map (⟨·, 0⟩)
termination_by _ s => s.length
decreasing_by simp only [List.length_drop, List.length_cons]; omega

end Node

end ByteTrie

/-- **A table of keywords by their folded bytes.** A keyword may start another. The entries are the
folded keywords with their values, in the order of their insertion. -/
structure ByteTrie (α : Type) where
  mode : CaseFold
  root : ByteTrie.Node := .empty
  entries : List (Bytes × α) := []

namespace ByteTrie

variable {α : Type}

instance : Inhabited (ByteTrie α) := ⟨{ mode := .exact }⟩

def size (t : ByteTrie α) : Nat := t.entries.length

/-- Adds a keyword. The entry follows once the keyword is in the tree. -/
def insert (t : ByteTrie α) (key : Bytes) (value : α) : Except (Thrown (ByteTrie α)) (ByteTrie α) :=
  let folded := t.mode.fold key
  match t.root.insertAt folded t.entries.length with
  | .ok root => .ok { t with root, entries := t.entries ++ [(folded, value)] }
  | .error thrown => .error ⟨thrown.error, { t with root := thrown.left }⟩

/-- One insertion after another, each on what the one before leaves behind. -/
def insertAll (t : ByteTrie α) (entries : List (Bytes × α)) : ByteTrie α :=
  entries.foldl (fun t e => match t.insert e.1 e.2 with
    | .ok t => t
    | .error thrown => thrown.left) t

/-- The trie of some keywords. Of two with one folding the first counts. -/
def ofList (mode : CaseFold) (entries : List (Bytes × α)) : ByteTrie α :=
  insertAll { mode } entries

/-- The value of an entry. -/
def valueAt? (t : ByteTrie α) (entry : Nat) : Option α := t.entries[entry]?.map (·.2)

/-- **The value of the keyword with the same folding as the text.** -/
def get? (t : ByteTrie α) (text : Bytes) : Option α := (t.root.get? t.mode text).bind t.valueAt?

/-- **The longest keyword that starts the text**, after folding. -/
def longestMatch? (t : ByteTrie α) (text : Bytes) : Option (Match α) :=
  (t.root.longestMatch? t.mode text).bind fun found =>
    (t.valueAt? found.value).map (⟨·, found.length⟩)

end ByteTrie

end WhitespaceAsm

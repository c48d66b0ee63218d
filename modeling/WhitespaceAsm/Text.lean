import WhitespaceAsm.Bytes

/-!
# Borrowed and owned text

A text is a slice of a program text or bytes made for the purpose, and remembers which. The two
kinds read alike and compare by their bytes.

* `Text`, `Text.substring`, `Text.append`, `Text.toOwned`.
-/

namespace WhitespaceAsm

/-- **Bytes that are a slice of the source or owned.** -/
structure Text where
  bytes : Bytes
  owned : Bool := false
deriving Repr, Inhabited

namespace Text

instance : BEq Text := ⟨fun a b => a.bytes == b.bytes⟩

/-- A slice that starts after the end of the text. -/
inductive RangeError
  | startsPastEnd
deriving DecidableEq, Repr

/-- At most `length` bytes from `start` on, and all of them without a `length`. A slice of the
source stays one. -/
def substring (t : Text) (start : Nat) (length : Option Nat) : Except RangeError Text :=
  if t.bytes.length < start then .error .startsPastEnd
  else
    let rest := t.bytes.drop start
    .ok { t with bytes := match length with | some n => rest.take n | none => rest }

def toOwned (t : Text) : Text := { t with owned := true }

/-- More bytes at the end. The result owns its bytes. -/
def append (t : Text) (s : Bytes) : Text := ⟨t.bytes ++ s, true⟩

end Text

end WhitespaceAsm

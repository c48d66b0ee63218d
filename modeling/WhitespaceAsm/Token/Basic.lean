import WhitespaceAsm.Signature
import WhitespaceAsm.Token.Payload

/-!
# Tokens

A token is its text with a payload. Two kinds of token wrap others: a word in quotes that carry no
meaning, and a word that block comments interrupt.

* **`Token`**, `Token.text`, `Token.kind`;
* `Token.unwrap`: the token that a wrapper stands for; `Token.retype`: it gets another payload;
* **`Token.hasError`**, `Token.isSpaceLike`, `Token.matchesKind`;
* `texts`: the text of a list of tokens.
-/

namespace WhitespaceAsm

/-- **A token.** -/
inductive Token
  /-- A token that wraps no other. -/
  | plain (text : Bytes) (payload : Payload)
  /-- A token in quotes. The text covers the quotes, the inner token what is between them. -/
  | quoted (text : Bytes) (inner : Option Token) (quotes : QuoteStyle) (terminated : Bool)
  /-- A word with comments inside: its parts in order, and the word that they make together. -/
  | spliced (text : Bytes) (parts : List Token) (word : Option Token)
deriving Repr

namespace Token

instance : Inhabited Token := ⟨.plain [] .endOfInput⟩

def text : Token → Bytes
  | plain text _ => text
  | quoted text _ _ _ => text
  | spliced text _ _ => text

/-- The token at the end of every input. -/
def endOfInput : Token := .plain [] .endOfInput

/-! ## Equality -/

mutual

def decEq : (a b : Token) → Decidable (a = b)
  | plain t p, plain t' p' => decidable_of_iff (t = t' ∧ p = p') (by simp)
  | quoted t i q e, quoted t' i' q' e' =>
    match decEqOption i i' with
    | .isTrue h => decidable_of_iff (t = t' ∧ q = q' ∧ e = e') (by simp [h])
    | .isFalse h => .isFalse (by simp [h])
  | spliced t ps w, spliced t' ps' w' =>
    match decEqList ps ps', decEqOption w w' with
    | .isTrue h, .isTrue h' => decidable_of_iff (t = t') (by simp [h, h'])
    | .isFalse h, _ => .isFalse (by simp [h])
    | _, .isFalse h => .isFalse (by simp [h])
  | plain .., quoted .. | plain .., spliced .. | quoted .., plain .. | quoted .., spliced ..
  | spliced .., plain .. | spliced .., quoted .. => .isFalse (by simp)

def decEqOption : (a b : Option Token) → Decidable (a = b)
  | none, none => .isTrue rfl
  | some a, some b =>
    match decEq a b with
    | .isTrue h => .isTrue (by simp [h])
    | .isFalse h => .isFalse (by simp [h])
  | none, some _ | some _, none => .isFalse (by simp)

def decEqList : (a b : List Token) → Decidable (a = b)
  | [], [] => .isTrue rfl
  | a :: as, b :: bs =>
    match decEq a b, decEqList as bs with
    | .isTrue h, .isTrue h' => .isTrue (by simp [h, h'])
    | .isFalse h, _ => .isFalse (by simp [h])
    | _, .isFalse h => .isFalse (by simp [h])
  | [], _ :: _ | _ :: _, [] => .isFalse (by simp)

end

instance : DecidableEq Token := decEq

/-! ## Kinds -/

def kind : Token → TokenKind
  | plain _ payload => payload.kind
  | quoted .. => .quoted
  | spliced .. => .spliced

/-- The token is a space or a block comment, which only separate. -/
def isSpaceLike (t : Token) : Bool := t.kind == .space || t.kind == .blockComment

/-! ## Wrappers -/

/-- **The token that a wrapper stands for**, through any number of wrappers. -/
def unwrap : Token → Token
  | quoted _ (some inner) _ _ => inner.unwrap
  | spliced _ _ (some word) => word.unwrap
  | t => t

/-- **The token with another payload** in the place of the one that `unwrap` finds. -/
def retype (payload : Payload) : Token → Token
  | quoted text (some inner) quotes terminated =>
    quoted text (some (inner.retype payload)) quotes terminated
  | spliced text parts (some word) => spliced text parts (some (word.retype payload))
  | t => plain t.text payload

/-- The payload of a token, unless it is a wrapper. -/
def payload? : Token → Option Payload
  | plain _ payload => some payload
  | quoted .. | spliced .. => none

/-! ## Errors -/

mutual

/-- **Something is wrong with a token** or with a token that it wraps. -/
def hasError : Token → Bool
  | plain _ payload => payload.hasError
  | quoted _ inner _ terminated => !terminated || hasErrorOption inner
  | spliced _ parts word => hasErrorList parts || hasErrorOption word

def hasErrorOption : Option Token → Bool
  | none => false
  | some t => t.hasError

def hasErrorList : List Token → Bool
  | [] => false
  | t :: ts => t.hasError || hasErrorList ts

end

theorem hasErrorOption_eq (o : Option Token) : hasErrorOption o = o.any hasError := by
  cases o <;> simp [hasErrorOption]

theorem hasErrorList_eq (ts : List Token) : hasErrorList ts = ts.any hasError := by
  induction ts with
  | nil => simp [hasErrorList]
  | cons t ts ih => simp [hasErrorList, ih]

/-! ## Arguments -/

/-- The token, or the one that it wraps, is an argument of a kind. -/
def matchesKind (t : Token) (kind : ArgKind) : Bool :=
  match kind, t.unwrap.payload? with
  | .integer, some (.integer _) | .integer, some (.char _) | .integer, some (.variable ..) => true
  | .string, some (.string _) | .string, some (.variable ..) => true
  | .variable, some (.variable ..) => true
  | .label, some (.label _) => true
  | .word, some (.word _) => true
  | .mnemonic, some (.mnemonic opcode) => opcode != .invalid
  | _, _ => false

end Token

def texts (ts : List Token) : Bytes := ts.flatMap Token.text

end WhitespaceAsm

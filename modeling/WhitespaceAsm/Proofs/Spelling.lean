import WhitespaceAsm.Proofs.Lexing
import WhitespaceAsm.Tree.Resolve

/-!
# How tokens are written

Parsing gives tokens other payloads and puts words together. Neither changes the leaves of a tree,
which are the tokens that have been read, nor its text.

* **`Token.leaves`**, `Node.leaves`: the tokens that a token or a tree is made of;
* **`SameSpelling`**: two lists of tokens with the same leaves and the same text.
-/

namespace WhitespaceAsm

/-! ## Wrappers -/

namespace Token

/-- **The token that a wrapper stands for** is the one that gets another payload. -/
theorem unwrap_retype (p : Payload) (t : Token) :
    (t.retype p).unwrap = .plain t.unwrap.text p := by
  fun_induction retype p t with
  | case1 text inner quotes terminated ih => simp only [unwrap, ih]
  | case2 text parts word ih => simp only [unwrap, ih]
  | case3 t hquoted hspliced =>
    cases t with
    | plain text q => rfl
    | quoted text inner quotes terminated =>
      cases inner with
      | none => rfl
      | some inner => exact absurd rfl (hquoted text inner quotes terminated)
    | spliced text parts word =>
      cases word with
      | none => rfl
      | some word => exact absurd rfl (hspliced text parts word)

theorem unwrap_text_setOpcode (opcode : Opcode) (t : Token) :
    (t.setOpcode opcode).unwrap.text = t.unwrap.text := by
  unfold setOpcode
  split
  · rw [unwrap_retype]; rfl
  · rfl

theorem payload?_of_kind_mnemonic {t : Token} (h : t.kind = .mnemonic) :
    ∃ opcode, t.payload? = some (.mnemonic opcode) := by
  cases t with
  | plain text p => cases p <;> simp [kind, Payload.kind, payload?] at h ⊢
  | quoted text inner quotes terminated => cases h
  | spliced text parts word => cases h

end Token

/-! ## Leaves -/

/-- **The tokens that a token is made of**: the parts of a word that has been put together, and
otherwise the token alone. -/
def Token.leaves : Token → List Token
  | spliced _ parts _ => parts
  | t => [t]

/-- **The tokens that a tree is made of**, in order. -/
def Node.leaves (n : Node) : List Token := n.tokens.flatMap Token.leaves

/-- What stays of a leaf: its text, and whether it is the end of the input. -/
def Token.shape (t : Token) : Bytes × Bool := (t.text, t.kind == .endOfInput)

theorem Token.eq_endOfInput_of_shape {t : Token} (h : t.shape = Token.endOfInput.shape) :
    t = Token.endOfInput := by
  obtain ⟨htext, hkind⟩ := Prod.mk.inj h
  cases t with
  | plain text p =>
    obtain rfl : text = [] := htext
    cases p with
    | endOfInput => rfl
    | _ => cases hkind
  | quoted text inner quotes terminated => cases hkind
  | spliced text parts word => cases hkind

/-- The leaves of some tokens. -/
def shapes (ts : List Token) : List (Bytes × Bool) := ts.flatMap fun t => t.leaves.map Token.shape

theorem Node.map_shape_leaves (n : Node) : n.leaves.map Token.shape = shapes n.tokens := by
  rw [leaves, List.map_flatMap]
  rfl

@[simp]
theorem shapes_nil : shapes [] = [] := rfl

@[simp]
theorem shapes_cons (t : Token) (ts : List Token) :
    shapes (t :: ts) = t.leaves.map Token.shape ++ shapes ts := rfl

@[simp]
theorem shapes_append (ts us : List Token) : shapes (ts ++ us) = shapes ts ++ shapes us :=
  List.flatMap_append

theorem Token.leaves_eq {t : Token} (h : t.kind ≠ .spliced) : t.leaves = [t] := by
  cases t with
  | plain text p => rfl
  | quoted text inner quotes terminated => rfl
  | spliced text parts word => exact absurd rfl h

theorem shapes_eq_map {ts : List Token} (h : ∀ t ∈ ts, t.kind ≠ .spliced) :
    shapes ts = ts.map Token.shape := by
  induction ts with
  | nil => rfl
  | cons t ts ih =>
    obtain ⟨ht, hts⟩ := List.forall_mem_cons.1 h
    rw [shapes_cons, Token.leaves_eq ht, ih hts]
    rfl

/-! ## The same spelling -/

/-- **Two lists of tokens are written in the same way**: their leaves and their texts agree. -/
structure SameSpelling (ts us : List Token) : Prop where
  shapes_eq : shapes ts = shapes us
  texts_eq : texts ts = texts us

namespace SameSpelling

variable {ts us vs ws : List Token}

theorem refl (ts : List Token) : SameSpelling ts ts := ⟨rfl, rfl⟩

theorem trans (h : SameSpelling ts us) (h' : SameSpelling us vs) : SameSpelling ts vs :=
  ⟨h.shapes_eq.trans h'.shapes_eq, h.texts_eq.trans h'.texts_eq⟩

theorem append (h : SameSpelling ts us) (h' : SameSpelling vs ws) :
    SameSpelling (ts ++ vs) (us ++ ws) :=
  ⟨by rw [shapes_append, shapes_append, h.shapes_eq, h'.shapes_eq],
    by rw [texts_append, texts_append, h.texts_eq, h'.texts_eq]⟩

end SameSpelling

/-- **The leaves of a tree that is written as some tokens**, of which none has been put together. -/
theorem Node.leaves_of_sameSpelling {n : Node} {ts us : List Token}
    (h : SameSpelling n.tokens (ts ++ us)) (hraw : ∀ t ∈ ts ++ us, t.kind ≠ .spliced) :
    ∃ leaves rest, n.leaves = leaves ++ rest ∧ leaves.map Token.shape = ts.map Token.shape ∧
      rest.map Token.shape = us.map Token.shape := by
  have hshapes : n.leaves.map Token.shape = ts.map Token.shape ++ us.map Token.shape := by
    rw [map_shape_leaves, ← List.map_append, ← shapes_eq_map hraw]
    exact h.shapes_eq
  exact List.map_eq_append_iff.1 hshapes

/-! ## Tokens one by one -/

namespace Token

/-- **All of a token that its spelling depends on.** -/
def spelling (t : Token) : Bytes × List (Bytes × Bool) := (t.text, t.leaves.map shape)

/-- A token that stands for one with a payload, which is not the end of the input. -/
def Stands (t : Token) : Prop := ∃ p, t.unwrap.payload? = some p ∧ p.kind ≠ .endOfInput

theorem spelling_plain (text : Bytes) {p q : Payload} (hp : p.kind ≠ .endOfInput)
    (hq : q.kind ≠ .endOfInput) : (plain text p).spelling = (plain text q).spelling := by
  have hp' : (p.kind == .endOfInput) = false := beq_eq_false_iff_ne.2 hp
  have hq' : (q.kind == .endOfInput) = false := beq_eq_false_iff_ne.2 hq
  simp [spelling, leaves, shape, kind, Token.text, hp', hq']

/-- **Another payload** changes no spelling. -/
theorem spelling_retype {p : Payload} (hp : p.kind ≠ .endOfInput) {t : Token} (ht : t.Stands) :
    (t.retype p).spelling = t.spelling := by
  obtain ⟨q, hq, hkind⟩ := ht
  cases t with
  | plain text r =>
    obtain rfl : r = q := Option.some.inj hq
    exact spelling_plain text hp hkind
  | quoted text inner quotes terminated =>
    cases inner with
    | none => cases hq
    | some inner => rfl
  | spliced text parts word =>
    cases word with
    | none => cases hq
    | some word => rfl

theorem spelling_setOpcode (opcode : Opcode) (t : Token) :
    (t.setOpcode opcode).spelling = t.spelling := by
  unfold setOpcode
  split
  · next old hold =>
    exact spelling_retype (by simp [Payload.kind]) ⟨_, hold, by simp [Payload.kind]⟩
  · rfl

theorem kind_setOpcode (opcode : Opcode) (t : Token) : (t.setOpcode opcode).kind = t.kind := by
  unfold setOpcode
  split
  · next old hold =>
    cases t with
    | plain text p =>
      obtain rfl : p = .mnemonic old := Option.some.inj hold
      rfl
    | quoted text inner quotes terminated =>
      cases inner with
      | none => cases hold
      | some inner => rfl
    | spliced text parts word =>
      cases word with
      | none => cases hold
      | some word => rfl
  · rfl

end Token

theorem SameSpelling.of_map {ts us : List Token}
    (h : ts.map Token.spelling = us.map Token.spelling) : SameSpelling ts us := by
  have hshapes : ∀ ts : List Token, shapes ts = (ts.map Token.spelling).flatMap Prod.snd := by
    intro ts
    rw [List.flatMap_map]
    rfl
  have htexts : ∀ ts : List Token, texts ts = (ts.map Token.spelling).flatMap Prod.fst := by
    intro ts
    rw [List.flatMap_map]
    rfl
  exact ⟨by rw [hshapes, hshapes, h], by rw [htexts, htexts, h]⟩

theorem Inst.sameSpelling {i j : Inst}
    (hbefore : i.before.map Token.spelling = j.before.map Token.spelling)
    (hhead : i.head.spelling = j.head.spelling)
    (hargs : (i.args.flatMap Arg.tokens).map Token.spelling
      = (j.args.flatMap Arg.tokens).map Token.spelling)
    (hafter : i.after.map Token.spelling = j.after.map Token.spelling) :
    SameSpelling i.tokens j.tokens := by
  refine SameSpelling.of_map ?_
  simp only [Inst.tokens, List.map_append, List.map_cons, List.map_nil, hbefore, hhead, hargs,
    hafter]

end WhitespaceAsm

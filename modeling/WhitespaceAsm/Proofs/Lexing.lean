import Mathlib.Data.List.Chain
import WhitespaceAsm.Lexing
import WhitespaceAsm.Proofs.Bytes

/-!
# What a rule says about all tokens of a text

A rule that reads the start of its text makes `tokenize` cut the text into pieces: nothing is lost
and no piece is empty. Whatever holds of the first token of every text then holds of every token.

* `Token.Starts`, **`ReadsStart`**: a token, or every token of a rule, is at least a byte and stands
  at the start of its text;
* **`texts_tokenize`**, `tokenize_eq_append`, `tokenize_eq_append_cons`, `forall_mem_tokenize`,
  `isChain_tokenize`: all tokens of a text;
* **`tokenize_append_lf`**: a rule that stops at line feeds reads line by line.
-/

namespace WhitespaceAsm

/-- The line feed as a token. -/
def Token.lineFeed : Token := .plain [Ascii.lf] (.lineTerm .lf)

@[simp]
theorem texts_nil : texts [] = [] := rfl

@[simp]
theorem texts_cons (t : Token) (ts : List Token) : texts (t :: ts) = t.text ++ texts ts := rfl

@[simp]
theorem texts_append (ts us : List Token) : texts (ts ++ us) = texts ts ++ texts us :=
  List.flatMap_append

/-- A token stands at the start of a text and is not empty. -/
structure Token.Starts (t : Token) (s : Bytes) : Prop where
  text_ne_nil : t.text ≠ []
  text_isPrefix : t.text <+: s

/-- **A rule reads the start of its text**, at least the first byte. -/
def ReadsStart (next : UInt8 → Bytes → Token) : Prop := ∀ b rest, (next b rest).Starts (b :: rest)

theorem Token.starts_plain (b : UInt8) {x rest : Bytes} (p : Payload) (h : x <+: rest) :
    (Token.plain (b :: x) p).Starts (b :: rest) :=
  ⟨List.cons_ne_nil _ _, (List.prefix_cons_inj b).2 h⟩

theorem Token.starts_byte (b : UInt8) (rest : Bytes) (p : Payload) :
    (Token.plain [b] p).Starts (b :: rest) :=
  starts_plain b p List.nil_prefix

/-- A token as lexers return it: neither the end of the input nor a word that has been put
together. -/
structure Token.IsRaw (t : Token) : Prop where
  kind_ne_endOfInput : t.kind ≠ .endOfInput
  kind_ne_spliced : t.kind ≠ .spliced

theorem Token.isRaw_plain (text : Bytes) {p : Payload} (h : p.kind ≠ .endOfInput) :
    (Token.plain text p).IsRaw :=
  ⟨h, by cases p <;> simp [Token.kind, Payload.kind]⟩

section Rule

variable {next : UInt8 → Bytes → Token} (h : ReadsStart next)

include h

theorem tokenize_eq {b : UInt8} {rest more : Bytes} (e : b :: rest = (next b rest).text ++ more) :
    tokenize next (b :: rest) = next b rest :: tokenize next more := by
  obtain ⟨c, text, ht⟩ := List.exists_cons_of_ne_nil (h b rest).text_ne_nil
  have hmore : rest.drop ((next b rest).text.length - 1) = more := by
    rw [ht, List.cons_append, List.cons.injEq] at e
    rw [ht, List.length_cons, Nat.add_sub_cancel, e.2, List.drop_left]
  rw [tokenize, hmore]

/-- **Induction along the tokens of a text.** -/
theorem ReadsStart.induction {motive : Bytes → Prop} (nil : motive [])
    (cons : ∀ b rest more, b :: rest = (next b rest).text ++ more → motive more →
      motive (b :: rest)) (s : Bytes) : motive s := by
  induction hn : s.length using Nat.strong_induction_on generalizing s with
  | _ n ih =>
    cases s with
    | nil => exact nil
    | cons b rest =>
      obtain ⟨more, e⟩ := (h b rest).text_isPrefix
      refine cons b rest more e.symm (ih more.length ?_ more rfl)
      have hlen := congrArg List.length e
      have hpos := List.length_pos_iff.2 (h b rest).text_ne_nil
      rw [List.length_append] at hlen
      omega

/-- **The tokens of a text make the text.** -/
theorem texts_tokenize (s : Bytes) : texts (tokenize next s) = s := by
  induction s using h.induction with
  | nil => simp [tokenize]
  | cons b rest more e ih => rw [tokenize_eq h e, texts_cons, ih, ← e]

theorem tokenize_eq_append {s : Bytes} {before after : List Token}
    (hs : tokenize next s = before ++ after) :
    s = texts before ++ texts after ∧ tokenize next (texts after) = after := by
  induction s using h.induction generalizing before with
  | nil =>
    rw [tokenize] at hs
    obtain ⟨rfl, rfl⟩ := List.append_eq_nil_iff.1 hs.symm
    exact ⟨rfl, by rw [texts_nil, tokenize]⟩
  | cons b rest more e ih =>
    cases before with
    | nil =>
      rw [List.nil_append] at hs
      have htexts := texts_tokenize h (b :: rest)
      rw [hs] at htexts
      rw [htexts]
      exact ⟨rfl, hs⟩
    | cons first before =>
      rw [tokenize_eq h e, List.cons_append, List.cons.injEq] at hs
      obtain ⟨hfirst, hmore⟩ := hs
      obtain ⟨hsource, hafter⟩ := ih hmore
      refine ⟨?_, hafter⟩
      rw [texts_cons, List.append_assoc, ← hsource, ← hfirst, ← e]

/-- **A token of a text** is the first one of what is left of the text there. -/
theorem tokenize_eq_append_cons {s : Bytes} {before after : List Token} {t : Token}
    (hs : tokenize next s = before ++ t :: after) :
    ∃ b rest, s.drop (texts before).length = b :: rest ∧ next b rest = t ∧
      b :: rest = t.text ++ texts after := by
  obtain ⟨hsource, hafter⟩ := tokenize_eq_append h hs
  rw [hsource, List.drop_left]
  cases hleft : texts (t :: after) with
  | nil =>
    rw [hleft, tokenize] at hafter
    cases hafter
  | cons b rest =>
    rw [hleft, tokenize] at hafter
    exact ⟨b, rest, rfl, (List.cons.inj hafter).1, hleft.symm⟩

theorem forall_mem_tokenize {P : Token → Prop} (hP : ∀ b rest, P (next b rest)) (s : Bytes) :
    ∀ t ∈ tokenize next s, P t := by
  induction s using h.induction with
  | nil => simp [tokenize]
  | cons b rest more e ih =>
    rw [tokenize_eq h e]
    exact List.forall_mem_cons.2 ⟨hP b rest, ih⟩

theorem isChain_tokenize {R : Token → Token → Prop}
    (hR : ∀ b rest c more, b :: rest = (next b rest).text ++ c :: more →
      R (next b rest) (next c more)) (s : Bytes) : (tokenize next s).IsChain R := by
  induction s using h.induction with
  | nil => simp [tokenize]
  | cons b rest more e ih =>
    rw [tokenize_eq h e]
    cases more with
    | nil => simp [tokenize]
    | cons c more =>
      obtain ⟨after, he⟩ := (h c more).text_isPrefix
      rw [tokenize_eq h he.symm] at ih ⊢
      exact List.isChain_cons_cons.2 ⟨hR b rest c more e, ih⟩

/-- **A rule that stops at line feeds reads line by line.** `Closed` are the tokens that do so; a
block comment without an end is not one of them. -/
theorem tokenize_append_lf (Closed : Token → Prop)
    (hlf : ∀ rest, next Ascii.lf rest = Token.lineFeed)
    (hlocal : ∀ b rest t, Closed (next b rest) → next b (rest ++ Ascii.lf :: t) = next b rest)
    {s : Bytes} (hs : ∀ t ∈ tokenize next s, Closed t) (t : Bytes) :
    tokenize next (s ++ Ascii.lf :: t)
      = tokenize next s ++ Token.lineFeed :: tokenize next t := by
  induction s using h.induction with
  | nil =>
    have e : Ascii.lf :: t = (next Ascii.lf t).text ++ t := by rw [hlf]; rfl
    rw [List.nil_append, tokenize_eq h e, hlf]
    simp [tokenize]
  | cons b rest more e ih =>
    rw [tokenize_eq h e] at hs ⊢
    obtain ⟨hclosed, hmore⟩ := List.forall_mem_cons.1 hs
    have hnext := hlocal b rest t hclosed
    have e' : b :: (rest ++ Ascii.lf :: t)
        = (next b (rest ++ Ascii.lf :: t)).text ++ (more ++ Ascii.lf :: t) := by
      rw [hnext, ← List.append_assoc, ← e, List.cons_append]
    rw [List.cons_append, tokenize_eq h e', hnext, ih hmore, List.cons_append]

end Rule

end WhitespaceAsm

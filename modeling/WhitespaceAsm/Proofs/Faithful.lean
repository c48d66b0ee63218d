import WhitespaceAsm.Proofs.FlagSet
import WhitespaceAsm.Proofs.Lexicon
import WhitespaceAsm.Proofs.Numeral.Digits
import WhitespaceAsm.Proofs.Spelling

/-!
# What a token carries gives its text back

A token has its bytes twice: as its text, and in pieces in its payload or in the tokens that it
wraps. The pieces put together are the text, with a closing quote or marker where none is missing.

* `betweenQuotes`, `Payload.Spells`, **`Token.Faithful`**: the text that a payload and a token
  stand for;
* **`Lexicon.faithful_of_mem_lex`**: the tokens of a program.
-/

namespace WhitespaceAsm

/-! ## Flags of literals -/

@[simp]
theorem StringError.bit_inj {e f : StringError} : Flag.bit e = Flag.bit f ↔ e = f := by
  cases e <;> cases f <;> decide

@[simp]
theorem CharError.bit_inj {e f : CharError} : Flag.bit e = Flag.bit f ↔ e = f := by
  cases e <;> cases f <;> decide

/-! ## Texts and payloads -/

/-- A text between quotes, the second of which can be missing. -/
def betweenQuotes (quote : UInt8) (body : Bytes) (closed : Bool) : Bytes :=
  [quote] ++ body ++ if closed then [quote] else []

/-- **The pieces that a payload keeps of its text make the text.** A payload without pieces says
nothing about it. -/
def Payload.Spells (text : Bytes) : Payload → Prop
  | .integer n => text = n.literal
  | .string s =>
    match s.quotes with
    | .double => text = betweenQuotes Ascii.doubleQuote s.literal (.unterminated ∉ s.errors)
    | .bare => text = s.literal
    | .single => False
  | .char c => text = betweenQuotes Ascii.singleQuote c.literal (.unterminated ∉ c.errors)
  | .variable sigil name => text = sigil ++ name
  | .label l => text = l.sigil ++ l.name
  | .lineComment c => text = c.marker ++ c.body
  | .blockComment c => text = c.opening ++ c.body ++ c.closing ∧ (c.closing = [] ↔ ¬c.terminated)
  | .mnemonic _ | .labelColon | .instSep _ | .argSep _ | .space | .lineTerm _ | .endOfInput
  | .word _ | .error .. => True

/-- **A token stands for its text** when its payload does, and the tokens in it do. -/
inductive Token.Faithful : Token → Prop
  | plain {text : Bytes} {p : Payload} (h : p.Spells text) : Faithful (.plain text p)
  /-- The text of a token in quotes is that of the inner token in quotes. -/
  | quoted {text : Bytes} {inner : Token} {terminated : Bool}
      (htext : text = betweenQuotes Ascii.doubleQuote inner.text terminated) (h : inner.Faithful) :
      Faithful (.quoted text (some inner) .double terminated)
  /-- The text of a word that has been put together is that of its parts. -/
  | spliced {text : Bytes} {parts : List Token} {word : Token} (htext : text = texts parts)
      (hparts : ∀ t ∈ parts, t.Faithful) (h : word.Faithful) :
      Faithful (.spliced text parts (some word))

namespace Token

/-! ## Another payload -/

@[simp]
theorem text_retype (p : Payload) (t : Token) : (t.retype p).text = t.text := by
  unfold retype
  split <;> rfl

theorem faithful_endOfInput : endOfInput.Faithful := .plain trivial

namespace Faithful

variable {t : Token} {p : Payload}

/-- **Another payload** for the token that a wrapper stands for. -/
theorem retype (h : t.Faithful) (hp : p.Spells t.unwrap.text) : (t.retype p).Faithful := by
  induction h with
  | plain _ => exact .plain hp
  | quoted htext _ ih => exact .quoted (by rw [htext, text_retype]) (ih hp)
  | spliced htext hparts _ _ ih => exact .spliced htext hparts (ih hp)

end Faithful

/-! ## Leaves -/

theorem Faithful.forall_leaves {t : Token} (h : t.Faithful) : ∀ u ∈ t.leaves, u.Faithful := by
  cases h with
  | plain h => simpa [leaves] using Faithful.plain h
  | quoted htext h => simpa [leaves] using Faithful.quoted htext h
  | spliced htext hparts h => exact hparts

/-- **The leaves of a token make its text.** -/
theorem Faithful.texts_leaves {t : Token} (h : t.Faithful) : texts t.leaves = t.text := by
  cases h with
  | plain h => exact List.append_nil _
  | quoted htext h => exact List.append_nil _
  | spliced htext hparts h => exact htext.symm

theorem texts_flatMap_leaves {ts : List Token} (h : ∀ t ∈ ts, t.Faithful) :
    texts (ts.flatMap leaves) = texts ts := by
  induction ts with
  | nil => rfl
  | cons t ts ih =>
    obtain ⟨ht, hts⟩ := List.forall_mem_cons.1 h
    rw [List.flatMap_cons, texts_append, ht.texts_leaves, ih hts, texts_cons]

/-! ## Comments and literals -/

theorem faithful_lineComment (n : Nat) (s : Bytes) : (lineComment n s).Faithful := .plain rfl

theorem faithful_checkedComment (n : Nat) (s : Bytes) : (checkedComment n s).Faithful := .plain rfl

theorem faithful_blockComment {style : BlockCommentStyle} (h : style.closing ≠ []) (s : Bytes) :
    (blockComment style s).Faithful := by
  refine .plain ⟨rfl, ?_⟩
  have hclosing := style.closing_scan 0 (s.drop style.opening.length)
  change (style.scan 0 (s.drop style.opening.length)).closing = []
    ↔ ¬(style.scan 0 (s.drop style.opening.length)).terminated
  rw [hclosing]
  cases (style.scan 0 (s.drop style.opening.length)).terminated <;> simp [h]

theorem faithful_integer (g : Numeral.Grammar) (text : Bytes) :
    (plain text (.integer (Numeral.parse g text))).Faithful :=
  .plain (Numeral.literal_parse g text).symm

theorem quoted_eq_betweenQuotes {quote : UInt8} {body s : Bytes} {unterminated : Prop}
    [Decidable unterminated] (h : unterminated ↔ closingQuote quote s = []) :
    [quote] ++ body ++ closingQuote quote s = betweenQuotes quote body (¬unterminated) := by
  rw [closingQuote_eq, betweenQuotes]
  by_cases hclosing : closingQuote quote s = []
  · simp [h, hclosing]
  · simp [h, hclosing]

end Token

/-! ## Burghard -/

namespace Burghard

theorem next_faithful (b : UInt8) (rest : Bytes) : (next b rest).Faithful := by
  refine next_cases b rest ?_ ?_ ?_ ?_ ?_ ?_ ?_
  · exact fun n _ _ => Token.faithful_lineComment n _
  · exact fun _ => Token.faithful_blockComment (by decide) _
  · exact fun _ => .plain ⟨rfl, by decide⟩
  · exact fun _ => .plain trivial
  · exact fun _ => .plain trivial
  · exact fun _ => .quoted rfl (.plain trivial)
  · exact fun _ => .plain trivial

end Burghard

/-! ## Palaiologos -/

namespace Palaiologos

theorem unterminated_notMem_charValue (body : Bytes) :
    CharError.unterminated ∉ (charValue body).2 := by
  unfold charValue
  dsimp only
  repeat' split
  all_goals simp [FlagSet.mem_insert, FlagSet.mem_singleton, mem_flagIf_iff]

theorem readChar_faithful (rest : Bytes) : (readChar rest).Faithful := by
  have hvalue := unterminated_notMem_charValue (quotedBody Ascii.singleQuote rest)
  unfold readChar
  dsimp only
  generalize charValue (quotedBody Ascii.singleQuote rest) = value at hvalue ⊢
  refine .plain (Token.quoted_eq_betweenQuotes ?_)
  simp [FlagSet.mem_union, mem_flagIf_iff, hvalue]

theorem readString_faithful (rest : Bytes) : (readString rest).Faithful := by
  refine .plain (Token.quoted_eq_betweenQuotes ?_)
  simp [FlagSet.mem_union, mem_flagIf_iff]

theorem next_faithful (b : UInt8) (rest : Bytes) : (next b rest).Faithful := by
  refine next_classes b rest ?_ ?_ ?_ ?_ ?_ ?_ ?_ ?_ ?_ ?_ ?_
  · exact fun _ _ => .plain trivial
  · exact fun _ => .plain trivial
  · exact fun text _ _ => Token.faithful_integer _ text
  · exact fun _ => .plain trivial
  · exact fun _ => .plain rfl
  · exact fun _ => readChar_faithful rest
  · exact fun _ => readString_faithful rest
  · exact Token.faithful_lineComment 1 _
  · intro p hp _
    cases p with
    | argSep _ | instSep _ | lineTerm _ => exact .plain trivial
    | _ => simp at hp
  · exact fun _ => .plain trivial
  · exact .plain trivial

end Palaiologos

/-! ## Voliva -/

namespace Voliva

theorem readString_faithful (rest : Bytes) : (readString rest).Faithful := by
  refine .plain (Token.quoted_eq_betweenQuotes ?_)
  simp [FlagSet.mem_union, mem_flagIf_iff]

theorem readChar_faithful (rest : Bytes) : (readChar rest).Faithful := by
  refine .plain (Token.quoted_eq_betweenQuotes ?_)
  simp [FlagSet.mem_union, mem_flagIf_iff]

theorem wordToken_faithful (text : Bytes) : (wordToken text).Faithful := by
  unfold wordToken
  dsimp only
  split
  · exact Token.faithful_integer _ text
  · exact .plain trivial

theorem next_faithful (b : UInt8) (rest : Bytes) : (next b rest).Faithful := by
  refine next_classes b rest ?_ ?_ ?_ ?_ ?_ ?_
  · exact fun _ => readString_faithful rest
  · exact fun _ => readChar_faithful rest
  · exact Token.faithful_checkedComment 1 _
  · exact fun _ => .plain trivial
  · exact fun _ => .plain trivial
  · exact wordToken_faithful _

end Voliva

/-! ## The dialects without a parser -/

theorem CensoredUsername.next_faithful (b : UInt8) (rest : Bytes) : (next b rest).Faithful := by
  unfold next
  split
  · exact .plain trivial
  split
  · exact Token.faithful_integer _ _
  split
  · exact .plain trivial
  split
  · exact .plain trivial
  split
  · exact Token.faithful_checkedComment 1 _
  split
  · exact .plain trivial
  split
  · exact .plain trivial
  · exact .plain trivial

theorem Wconrad.next_faithful (b : UInt8) (rest : Bytes) : (next b rest).Faithful := by
  unfold next readWord
  split
  · exact Token.faithful_checkedComment 1 _
  split
  · exact .plain trivial
  split
  · exact .plain trivial
  dsimp only
  split
  · exact Token.faithful_integer _ _
  · exact .plain trivial

theorem Wsf.next_faithful (b : UInt8) (rest : Bytes) : (next b rest).Faithful := by
  unfold next
  split
  · exact .plain trivial
  split
  · exact Token.faithful_integer _ _
  split
  · exact .plain trivial
  split
  · exact Token.faithful_checkedComment 1 _
  split
  · exact .plain trivial
  split
  · exact .plain trivial
  · exact .plain trivial

/-! ## All dialects -/

namespace Lexicon

theorem next_faithful (l : Lexicon) (b : UInt8) (rest : Bytes) : (l.next b rest).Faithful :=
  match l with
  | burghard => Burghard.next_faithful b rest
  | palaiologos => Palaiologos.next_faithful b rest
  | voliva => Voliva.next_faithful b rest
  | censoredUsername => CensoredUsername.next_faithful b rest
  | wconrad => Wconrad.next_faithful b rest
  | wsf => Wsf.next_faithful b rest

/-- **The tokens of a program** stand for their texts. -/
theorem faithful_of_mem_lex {l : Lexicon} {src : Bytes} {t : Token} (ht : t ∈ l.lex src) :
    t.Faithful := by
  by_cases hl : l = burghard
  · subst hl
    exact Burghard.forall_mem_lex Burghard.next_faithful (fun _ _ _ => .plain trivial) src t ht
  · rw [lex_eq_tokenize hl] at ht
    exact forall_mem_tokenize l.next_readsStart l.next_faithful src t ht

end Lexicon

end WhitespaceAsm

import WhitespaceAsm.Lexer
import WhitespaceAsm.Proofs.Burghard.Lex
import WhitespaceAsm.Proofs.Palaiologos.Lex
import WhitespaceAsm.Proofs.Voliva.Lex
import WhitespaceAsm.Proofs.WordLexers

/-!
# What all dialects have in common

* `Lexicon.next_readsStart`, `Lexicon.next_isRaw`: a rule reads the start of its text, and never
  finds the end of the input there;
* `Lexicon.lex_eq_tokenize`: outside Burghard the tokens are those of the rule;
* **`Lexicon.lex_line_by_line`**: the tokens of a line do not depend on the lines after it.
-/

namespace WhitespaceAsm.Lexicon

/-! ## Rules -/

theorem next_readsStart (l : Lexicon) : ReadsStart l.next :=
  match l with
  | burghard => Burghard.next_readsStart
  | palaiologos => Palaiologos.next_readsStart
  | voliva => Voliva.next_readsStart
  | censoredUsername => CensoredUsername.next_readsStart
  | wconrad => Wconrad.next_readsStart
  | wsf => Wsf.next_readsStart

theorem next_isRaw (l : Lexicon) (b : UInt8) (rest : Bytes) : (l.next b rest).IsRaw :=
  match l with
  | burghard => Burghard.next_isRaw b rest
  | palaiologos => Palaiologos.next_isRaw b rest
  | voliva => Voliva.next_isRaw b rest
  | censoredUsername => CensoredUsername.next_isRaw b rest
  | wconrad => Wconrad.next_isRaw b rest
  | wsf => Wsf.next_isRaw b rest

theorem next_lf (l : Lexicon) (rest : Bytes) : l.next Ascii.lf rest = Token.lineFeed :=
  match l with
  | burghard => Burghard.next_lf rest
  | palaiologos => Palaiologos.next_lf rest
  | voliva => Voliva.next_lf rest
  | censoredUsername => CensoredUsername.next_lf rest
  | wconrad => Wconrad.next_lf rest
  | wsf => Wsf.next_lf rest

theorem next_append_lf {l : Lexicon} (h : l ≠ burghard) (b : UInt8) (rest t : Bytes) :
    l.next b (rest ++ Ascii.lf :: t) = l.next b rest :=
  match l with
  | burghard => absurd rfl h
  | palaiologos => Palaiologos.next_append_lf b rest t
  | voliva => Voliva.next_append_lf b rest t
  | censoredUsername => CensoredUsername.next_append_lf b rest t
  | wconrad => Wconrad.next_append_lf b rest t
  | wsf => Wsf.next_append_lf b rest t

theorem lex_eq_tokenize {l : Lexicon} (h : l ≠ burghard) (src : Bytes) :
    l.lex src = tokenize l.next src := by
  cases l with
  | burghard => exact absurd rfl h
  | palaiologos | voliva | censoredUsername | wconrad | wsf => rfl

/-! ## Tokens of a program -/

theorem texts_lex (l : Lexicon) (src : Bytes) : texts (l.lex src) = src := by
  by_cases h : l = burghard
  · subst h; exact Burghard.texts_lex src
  · rw [lex_eq_tokenize h, texts_tokenize l.next_readsStart]

theorem text_ne_nil_of_mem_lex {l : Lexicon} {src : Bytes} {t : Token} (ht : t ∈ l.lex src) :
    t.text ≠ [] := by
  by_cases h : l = burghard
  · subst h; exact Burghard.text_ne_nil_of_mem_lex ht
  · rw [lex_eq_tokenize h] at ht
    exact forall_mem_tokenize l.next_readsStart (P := fun t => t.text ≠ [])
      (fun b rest => (l.next_readsStart b rest).text_ne_nil) src t ht

theorem isRaw_of_mem_lex {l : Lexicon} {src : Bytes} {t : Token} (ht : t ∈ l.lex src) :
    t.IsRaw := by
  by_cases h : l = burghard
  · subst h; exact Burghard.isRaw_of_mem_lex ht
  · rw [lex_eq_tokenize h] at ht
    exact forall_mem_tokenize l.next_readsStart l.next_isRaw src t ht

/-! ## Lines -/

/-- **The tokens of a line do not depend on the lines after it**, and these are read as a program of
their own. In Burghard programs the line must be well-formed and leave no block comment open. -/
theorem lex_line_by_line (l : Lexicon) (a b : Bytes)
    (h : l = burghard → Utf8.isValid a ∧ ∀ t ∈ l.lex a, t.isOpenComment = false) :
    l.lex (a ++ Ascii.lf :: b) = l.lex a ++ Token.lineFeed :: l.lex b := by
  by_cases hl : l = burghard
  · obtain ⟨hvalid, hclosed⟩ := h hl
    subst hl
    exact Burghard.lex_append_lf hvalid hclosed b
  · rw [lex_eq_tokenize hl, lex_eq_tokenize hl, lex_eq_tokenize hl]
    exact tokenize_append_lf l.next_readsStart (fun _ => True) l.next_lf
      (fun b rest t _ => next_append_lf hl b rest t) (fun _ _ => trivial) b

/-- A line with a comment that ends on it, before one with a comment that does not. -/
theorem lex_line_by_line_comment :
    burghard.lex ((Burghard.blockOpen ++ Burghard.blockClose) ++ Ascii.lf :: Burghard.blockOpen)
      = burghard.lex (Burghard.blockOpen ++ Burghard.blockClose)
        ++ Token.lineFeed :: burghard.lex Burghard.blockOpen := by
  have hvalid : Utf8.isValid (Burghard.blockOpen ++ Burghard.blockClose) := by cbv
  have hclosed : (burghard.lex (Burghard.blockOpen ++ Burghard.blockClose)).all
      (!·.isOpenComment) := by cbv
  exact lex_line_by_line burghard _ _ fun _ => ⟨hvalid, by simpa using hclosed⟩

end WhitespaceAsm.Lexicon

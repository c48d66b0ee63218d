import WhitespaceAsm.Proofs.Comment
import WhitespaceAsm.Proofs.Lexing
import WhitespaceAsm.Proofs.Quoted
import WhitespaceAsm.Proofs.Utf8
import WhitespaceAsm.Voliva.Lex

/-!
# The tokens of voliva programs

* `next_classes`: the tokens by the rules that read them; **`next_cases`**: a token is a word or a
  literal, a space, a comment or a line feed; `next_readsStart`, `next_isRaw`;
* **`next_append_lf`**: no token goes on after its line.
-/

namespace WhitespaceAsm.Voliva

/-! ## Classes of tokens -/

/-- The kinds of words and literals. -/
def wordKinds : List TokenKind := [.word, .integer, .string, .char]

theorem wordToken_cases {motive : Token → Prop} (text : Bytes)
    (h : ∀ p : Payload, p.kind ∈ wordKinds → motive (.plain text p)) : motive (wordToken text) := by
  unfold wordToken
  dsimp only
  split
  · exact h _ (by simp [Payload.kind, wordKinds])
  · exact h _ (by simp [Payload.kind, wordKinds])

theorem takeChars_starts {b : UInt8} {rest : Bytes} (h : atSpace (b :: rest)) (p : Payload) :
    (Token.plain (Utf8.takeChars isSpace (b :: rest)) p).Starts (b :: rest) := by
  rw [atSpace, Bool.and_eq_true] at h
  exact ⟨Utf8.takeChars_ne_nil h.1 h.2, Utf8.takeChars_isPrefix _ _⟩

/-- **The tokens of the dialect**, each with what stands at the start of the text. -/
theorem next_classes {motive : Token → Prop} (b : UInt8) (rest : Bytes)
    (string : b = Ascii.doubleQuote → motive (readString rest))
    (char : b = Ascii.singleQuote → motive (readChar rest))
    (comment : motive (Token.checkedComment 1 (b :: rest)))
    (lineFeed : b = Ascii.lf → motive Token.lineFeed)
    (space : atSpace (b :: rest) → motive (.plain (Utf8.takeChars isSpace (b :: rest)) .space))
    (word : motive (readWord b rest)) : motive (next b rest) := by
  unfold next
  split
  · next hquote => exact string hquote
  split
  · next hquote => exact char hquote
  split
  · exact comment
  split
  · next hlf =>
    subst hlf
    exact lineFeed rfl
  split
  · next hspace => exact space hspace
  · exact word

theorem next_cases {motive : Token → Prop} (b : UInt8) (rest : Bytes)
    (word : ∀ text p, (Token.plain text p).Starts (b :: rest) → p.kind ∈ wordKinds →
      motive (.plain text p))
    (comment : motive (Token.checkedComment 1 (b :: rest)))
    (lineFeed : b = Ascii.lf → motive Token.lineFeed)
    (space : ∀ text, (Token.plain text .space).Starts (b :: rest) → motive (.plain text .space)) :
    motive (next b rest) := by
  refine next_classes b rest ?_ ?_ comment lineFeed (fun h => space _ (takeChars_starts h _)) ?_
  · rintro rfl
    exact word _ _ ⟨List.cons_ne_nil _ _, quoted_isPrefix _ rest⟩
      (by simp [Payload.kind, wordKinds])
  · rintro rfl
    exact word _ _ ⟨List.cons_ne_nil _ _, quoted_isPrefix _ rest⟩
      (by simp [Payload.kind, wordKinds])
  · unfold readWord
    refine wordToken_cases _ fun p hp => ?_
    exact word _ _ (Token.starts_plain b p (takeUntil_isPrefix _ _)) hp

theorem next_readsStart : ReadsStart next := by
  intro b rest
  refine next_cases (motive := fun t => t.Starts (b :: rest)) b rest ?_ ?_ ?_ ?_
  · exact fun _ _ h _ => h
  · exact Token.starts_checkedComment (by decide) b rest
  · rintro rfl; exact Token.starts_byte _ rest _
  · exact fun _ h => h

theorem next_isRaw (b : UInt8) (rest : Bytes) : (next b rest).IsRaw := by
  refine next_cases b rest ?_ ?_ ?_ ?_
  · intro text p _ hp
    refine Token.isRaw_plain text fun hend => ?_
    simp [hend, wordKinds] at hp
  · exact Token.isRaw_plain _ (by simp [Payload.kind])
  · exact fun _ => Token.isRaw_plain _ (by simp [Payload.kind])
  · exact fun text _ => Token.isRaw_plain text (by simp [Payload.kind])

/-! ## Line by line -/

theorem next_lf (rest : Bytes) : next Ascii.lf rest = Token.lineFeed := rfl

theorem atSpace_append_lf (b : UInt8) (s t : Bytes) :
    atSpace (b :: (s ++ Ascii.lf :: t)) = atSpace (b :: s) := by
  rw [atSpace, atSpace, Utf8.decode_append_lf]

theorem atWordEnd_append_lf (b : UInt8) (s t : Bytes) :
    atWordEnd (b :: (s ++ Ascii.lf :: t)) = atWordEnd (b :: s) := by
  rw [atWordEnd, atWordEnd, atSpace_append_lf]

theorem readString_append_lf (rest t : Bytes) :
    readString (rest ++ Ascii.lf :: t) = readString rest := by
  rw [readString, readString, quotedBody_append_lf, closingQuote_drop_append_lf (by decide)]

theorem readChar_append_lf (rest t : Bytes) :
    readChar (rest ++ Ascii.lf :: t) = readChar rest := by
  rw [readChar, readChar, quotedBody_append_lf, closingQuote_drop_append_lf (by decide)]

theorem readWord_append_lf (b : UInt8) (rest t : Bytes) :
    readWord b (rest ++ Ascii.lf :: t) = readWord b rest := by
  rw [readWord, readWord, takeUntil_append_lf rest t atWordEnd (fun _ => rfl)
    (fun b s => atWordEnd_append_lf b s t)]

theorem next_append_lf (b : UInt8) (rest t : Bytes) :
    next b (rest ++ Ascii.lf :: t) = next b rest := by
  have hcomment := Token.checkedComment_append_lf (n := 1) (s := b :: rest) (by simp) t
  have hspace := Utf8.takeChars_append_lf (p := isSpace) (by decide) (b :: rest) t
  rw [List.cons_append] at hcomment hspace
  unfold next
  rw [readString_append_lf, readChar_append_lf, readWord_append_lf, hcomment, hspace,
    atSpace_append_lf]

end WhitespaceAsm.Voliva

import WhitespaceAsm.Proofs.Burghard.Lookahead
import WhitespaceAsm.Proofs.Burghard.Retyped

/-!
# Words with comments inside

No word of a program stands right behind another one, so that there is a comment wherever two words
are put together. What they make is a word, with comments and further words behind it.

* `WordsApart`, **`wordsApart_lex`**: no two words of a program follow each other;
* `Seam`, **`Interrupted`**: the parts of a word with comments inside;
* **`Whole`**: tokens before they are typed; `whole_of_mem_lex`: those of a program;
* **`whole_splice`**: two words put together.
-/

namespace WhitespaceAsm.Burghard

/-! ## The words of a program -/

/-- **No two words follow each other.** -/
def WordsApart (ts : List Token) : Prop :=
  ts.IsChain fun t u => ¬ (t.kind = .word ∧ u.kind = .word)

/-- **No two words of a program follow each other**: a word ends where none could begin. -/
theorem wordsApart_lex (src : Bytes) : WordsApart (lex src) := by
  refine isChain_lex (fun b rest c more e => ?_) (fun t rest length h => by cases h.2) src
  rintro ⟨ht, hu⟩
  have hword := next_of_not_atWordEnd (not_atWordEnd_of_kind_next ht)
  rw [hword, readWord] at e
  have hrest : rest = takeUntil atWordEnd rest ++ c :: more := (List.cons.inj e).2
  rw [readWord] at hword
  generalize takeUntil atWordEnd rest = x at hrest hword
  subst hrest
  have hend : atWordEnd (c :: more) = true := ((next_eq_word_iff _ _ _).1 hword).2
  rw [not_atWordEnd_of_kind_next hu] at hend
  cases hend

/-! ## Tokens before they are typed -/

/-- The words among some tokens. -/
def words (ts : List Token) : List Token := ts.filter (·.kind == .word)

/-- A block comment or more, and the word behind them. -/
def Seam (ts : List Token) : Prop :=
  ∃ comments word, ts = comments ++ [word] ∧ comments ≠ [] ∧
    (∀ c ∈ comments, c.kind = .blockComment) ∧ word.kind = .word

/-- **A word with comments inside**: a word, and behind it comments and another word, once or
more. -/
inductive Interrupted : List Token → Prop
  | once {first : Token} {seam : List Token} (hfirst : first.kind = .word) (hseam : Seam seam) :
      Interrupted (first :: seam)
  | again {parts seam : List Token} (earlier : Interrupted parts) (hseam : Seam seam) :
      Interrupted (parts ++ seam)

/-- **A token before it is typed**, alone or put together. -/
inductive Whole : Token → Prop
  | plain (text : Bytes) (p : Payload) : Whole (.plain text p)
  | quoted (text inner : Bytes) (p : Payload) (quotes : QuoteStyle) (terminated : Bool) :
      Whole (.quoted text (some (.plain inner p)) quotes terminated)
  | spliced {parts : List Token} (h : Interrupted parts) (errors : FlagSet WordError) :
      Whole (.spliced (texts parts) parts (some (.plain (texts (words parts)) (.word errors))))

theorem words_append (ts us : List Token) : words (ts ++ us) = words ts ++ words us :=
  List.filter_append ts us

theorem words_cons {t : Token} (h : t.kind = .word) (ts : List Token) :
    words (t :: ts) = t :: words ts :=
  List.filter_cons_of_pos (by simp [h])

theorem words_seam {comments : List Token} (h : ∀ c ∈ comments, c.kind = .blockComment)
    {word : Token} (hword : word.kind = .word) : words (comments ++ [word]) = [word] := by
  have hcomments : words comments = [] := List.filter_eq_nil_iff.2 fun c hc => by simp [h c hc]
  rw [words_append, hcomments, words_cons hword, List.nil_append]
  rfl

theorem Interrupted.forall_kind {parts : List Token} (h : Interrupted parts) :
    ∀ t ∈ parts, t.kind = .word ∨ t.kind = .blockComment := by
  have hseam : ∀ {ts}, Seam ts → ∀ t ∈ ts, t.kind = .word ∨ t.kind = .blockComment := by
    rintro ts ⟨comments, word, rfl, -, hcomments, hword⟩
    exact List.forall_mem_append.2
      ⟨fun c hc => .inr (hcomments c hc), List.forall_mem_singleton.2 (.inl hword)⟩
  induction h with
  | once hfirst h => exact List.forall_mem_cons.2 ⟨.inl hfirst, hseam h⟩
  | again earlier h ih => exact List.forall_mem_append.2 ⟨ih, hseam h⟩

theorem Interrupted.eq_concat {parts : List Token} (h : Interrupted parts) :
    ∃ earlier last, parts = earlier ++ [last] ∧ last.kind = .word := by
  cases h with
  | once hfirst h =>
    obtain ⟨comments, word, rfl, -, -, hword⟩ := h
    exact ⟨_ :: comments, word, rfl, hword⟩
  | again earlier h =>
    obtain ⟨comments, word, rfl, -, -, hword⟩ := h
    exact ⟨_ ++ comments, word, (List.append_assoc _ _ _).symm, hword⟩

theorem Whole.retyped {t : Token} (h : Whole t) : t.Retyped t := by
  cases h with
  | plain text p => exact .plain text p p
  | quoted text inner p quotes terminated => exact .quoted text inner p p quotes terminated
  | spliced h errors => exact .spliced _ _ _ _ _

theorem whole_of_mem_lex {src : Bytes} {t : Token} (ht : t ∈ lex src) : Whole t := by
  refine forall_mem_lex (fun b rest => ?_) (fun _ _ _ => .plain _ _) src t ht
  refine next_cases (motive := Whole) b rest ?_ ?_ ?_ ?_ ?_ ?_ ?_
  · exact fun _ _ _ => .plain _ _
  · exact fun _ => .plain _ _
  · exact fun _ => .plain _ _
  · exact fun _ => .plain _ _
  · exact fun _ => .plain _ _
  · exact fun _ => .quoted _ _ _ _ _
  · exact fun _ => .plain _ _

/-! ## Putting two words together -/

/-- **Two words put together** are a word with comments inside: they do not follow each other
without one. -/
theorem whole_splice {lhs rhs : Token} (hlhs : Whole lhs) {between : List Token}
    (h : shouldSplice lhs between rhs) (hapart : WordsApart (lhs.leaves ++ (between ++ [rhs]))) :
    Whole (splice lhs between rhs) := by
  obtain ⟨hbetween, hkind, hrhs⟩ := shouldSplice_iff.1 h
  have hwords := words_seam hbetween hrhs
  have hseam : ∀ earlier last, lhs.leaves = earlier ++ [last] → last.kind = .word →
      Seam (between ++ [rhs]) := by
    refine fun earlier last hleaves hlast => ⟨between, rhs, rfl, ?_, hbetween, hrhs⟩
    rintro rfl
    rw [WordsApart, hleaves, List.nil_append, List.append_assoc, List.isChain_append] at hapart
    exact (List.isChain_pair.1 hapart.2.1) ⟨hlast, hrhs⟩
  obtain ⟨more, errors', rfl⟩ := eq_plain_of_kind hrhs
  obtain hkind | hkind := hkind
  · obtain ⟨text, errors, rfl⟩ := eq_plain_of_kind hkind
    have hparts := Interrupted.once hkind (hseam [] _ rfl hkind)
    have hwhole := Whole.spliced hparts (errors ∪ errors')
    rw [words_cons hkind, hwords] at hwhole
    simpa [splice, joinWord, Token.text] using hwhole
  · cases hlhs with
    | plain text p => cases p <;> cases hkind
    | quoted => cases hkind
    | @spliced parts hparts errors =>
      obtain ⟨earlier, last, hlast, hword⟩ := hparts.eq_concat
      have hparts' := hparts.again (hseam earlier last hlast hword)
      have hwhole := Whole.spliced hparts' (errors ∪ errors')
      rw [words_append, hwords] at hwhole
      simpa [splice, joinWord, Token.text] using hwhole

end WhitespaceAsm.Burghard

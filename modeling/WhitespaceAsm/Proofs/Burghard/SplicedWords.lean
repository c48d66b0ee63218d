import WhitespaceAsm.Proofs.Burghard.InterruptedWords
import WhitespaceAsm.Proofs.Program

/-!
# The words that a program puts together

A word takes the next one as long as only block comments are in between. What it becomes is made of
the tokens of the program at its place, and no word is left that it could have taken.

* **`SplicesTo`**: what raw tokens become; `SplicesTo.retype`, `SplicesTo.append`: typing, and
  tokens that are no words;
* **`SplicesTo.spliceArgs`**, `SplicesTo.statement`, `splicesTo_statements`: the words of an
  instruction, of a statement and of all statements;
* `SplicesTo.eq_append_cons`, `PartsAt`, **`SplicesTo.maximal`**: what a token is made of, and which
  tokens are parts of the same one;
* `parse_splicesTo`: the tokens of a tree; `Token.Within`: those that they wrap;
  **`parse_splicedWords`**: what is put together anywhere in a tree.
-/

namespace WhitespaceAsm

/-- **A token in another one**: the token itself, or one that it wraps. -/
inductive Token.Within (s : Token) : Token → Prop
  | self : s.Within s
  | quoted {inner : Token} (h : s.Within inner) (text : Bytes) (quotes : QuoteStyle)
      (terminated : Bool) : s.Within (.quoted text (some inner) quotes terminated)
  | part {parts : List Token} {part : Token} (hpart : part ∈ parts) (h : s.Within part)
      (text : Bytes) (word : Option Token) : s.Within (.spliced text parts word)
  | word {word : Token} (h : s.Within word) (text : Bytes) (parts : List Token) :
      s.Within (.spliced text parts (some word))

namespace Burghard

/-! ## Putting the words of a program together -/

/-- **Only block comments are in front of the next word.** -/
inductive WordAhead : List Token → Prop
  | word {t : Token} (h : t.kind = .word) (ts : List Token) : WordAhead (t :: ts)
  | comment {t : Token} {ts : List Token} (h : t.kind = .blockComment) (ahead : WordAhead ts) :
      WordAhead (t :: ts)

namespace WordAhead

variable {t : Token} {ts us : List Token}

theorem kind_head (h : WordAhead (t :: ts)) : t.kind = .word ∨ t.kind = .blockComment := by
  cases h with
  | word h => exact .inl h
  | comment h => exact .inr h

theorem behind (hts : ∀ c ∈ ts, c.kind = .blockComment) (hus : WordAhead us) :
    WordAhead (ts ++ us) := by
  induction ts with
  | nil => exact hus
  | cons t ts ih =>
    obtain ⟨ht, hts⟩ := List.forall_mem_cons.1 hts
    exact .comment ht (ih hts)

theorem of_append (hts : ∀ t ∈ ts, t.kind ≠ .word) (h : WordAhead (ts ++ us)) :
    (∀ c ∈ ts, c.kind = .blockComment) ∧ WordAhead us := by
  induction ts with
  | nil => exact ⟨List.forall_mem_nil _, h⟩
  | cons t ts ih =>
    obtain ⟨ht, hts⟩ := List.forall_mem_cons.1 hts
    cases h with
    | word h => exact absurd h ht
    | comment h ahead =>
      obtain ⟨hcomments, hus⟩ := ih hts ahead
      exact ⟨List.forall_mem_cons.2 ⟨h, hcomments⟩, hus⟩

end WordAhead

theorem kind_of_isSpaceLike {t : Token} (h : t.isSpaceLike) :
    t.kind ≠ .word ∧ t.kind ≠ .spliced := by
  simp only [Token.isSpaceLike, Bool.or_eq_true, beq_iff_eq] at h
  obtain h | h := h
  · simp [h]
  · simp [h]

theorem kind_of_isWord {t : Token} (h : isWord t) : t.kind ≠ .spliced ∧ t.kind ≠ .blockComment := by
  simp only [isWord, Bool.or_eq_true, beq_iff_eq] at h
  obtain h | h := h
  · simp [h]
  · simp [h]

/-- **The tokens that raw ones become.** Each is made of those at its place and carries what typing
gives it, and behind a word there is no further one that it could take. -/
inductive SplicesTo : List Token → List Token → Prop
  | nil : SplicesTo [] []
  | cons {t u : Token} {raw made : List Token} (whole : Whole t) (retyped : t.Retyped u)
      (maximal : t.kind = .word ∨ t.kind = .spliced → ¬ WordAhead raw)
      (rest : SplicesTo raw made) : SplicesTo (t.leaves ++ raw) (u :: made)

namespace SplicesTo

variable {raw made : List Token} (h : SplicesTo raw made)

include h

theorem retyped_self : ∀ t ∈ made, t.Retyped t := by
  induction h with
  | nil => exact List.forall_mem_nil _
  | cons whole retyped maximal rest ih => exact List.forall_mem_cons.2 ⟨retyped.right, ih⟩

theorem retype {made' : List Token} (htyped : List.Forall₂ Token.Retyped made made') :
    SplicesTo raw made' := by
  induction h generalizing made' with
  | nil =>
    cases htyped
    exact .nil
  | cons whole retyped maximal rest ih =>
    cases htyped with
    | cons htoken htyped => exact .cons whole (retyped.trans htoken) maximal (ih htyped)

theorem append {ts : List Token} (hts : ∀ t ∈ ts, Whole t ∧ t.kind ≠ .word ∧ t.kind ≠ .spliced) :
    SplicesTo (ts ++ raw) (ts ++ made) := by
  induction ts with
  | nil => exact h
  | cons t ts ih =>
    obtain ⟨⟨hwhole, hword, hspliced⟩, hts⟩ := List.forall_mem_cons.1 hts
    have hcons := cons hwhole hwhole.retyped (fun ht => absurd ht (not_or.2 ⟨hword, hspliced⟩))
      (ih hts)
    rwa [Token.leaves_eq hspliced] at hcons

theorem spliceArgs {lhs : Token} (hlhs : Whole lhs) {args : List Arg}
    (hargs : ∀ a ∈ args, (∀ t ∈ a.sep, t.isSpaceLike) ∧ isWord a.token)
    (hwhole : ∀ a ∈ args, ∀ t ∈ a.tokens, Whole t)
    (hapart : WordsApart (lhs.leaves ++ args.flatMap Arg.tokens)) (hend : ¬ WordAhead raw) :
    SplicesTo (lhs.leaves ++ (args.flatMap Arg.tokens ++ raw))
      ((Burghard.spliceArgs lhs args).1 ::
        ((Burghard.spliceArgs lhs args).2.flatMap Arg.tokens ++ made)) := by
  induction args generalizing lhs with
  | nil => exact .cons hlhs hlhs.retyped (fun _ => hend) h
  | cons a args ih =>
    obtain ⟨sep, token⟩ := a
    obtain ⟨⟨hsep, hword⟩, hargs⟩ := List.forall_mem_cons.1 hargs
    obtain ⟨ha, hwhole⟩ := List.forall_mem_cons.1 hwhole
    obtain ⟨hseps, htoken⟩ := Arg.forall_tokens_iff.1 ha
    have hleaves : token.leaves = [token] := Token.leaves_eq (kind_of_isWord hword).1
    rw [List.flatMap_cons, Arg.tokens] at hapart ⊢
    by_cases hsplice : shouldSplice lhs sep token
    · rw [← List.append_assoc] at hapart
      have hmore := ih (whole_splice hlhs hsplice (List.isChain_append.1 hapart).1) hargs hwhole
        (by rwa [leaves_splice, List.append_assoc lhs.leaves])
      rw [spliceArgs_of_shouldSplice hsplice]
      rw [leaves_splice] at hmore
      simpa using hmore
    · have hrest : WordsApart (token.leaves ++ args.flatMap Arg.tokens) := by
        rw [hleaves]
        refine hapart.suffix ⟨lhs.leaves ++ sep, ?_⟩
        simp
      have hmore := (ih htoken hargs hwhole hrest).append fun t ht =>
        ⟨hseps t ht, kind_of_isSpaceLike (hsep t ht)⟩
      rw [spliceArgs_of_not_shouldSplice hsplice]
      have hcons := cons hlhs hlhs.retyped (fun hkind hahead => hsplice ?_) hmore
      · rw [hleaves] at hcons
        simpa [Arg.tokens] using hcons
      · rw [hleaves] at hahead
        obtain ⟨hcomments, hahead⟩ := hahead.of_append fun t ht =>
          (kind_of_isSpaceLike (hsep t ht)).1
        refine shouldSplice_iff.2 ⟨hcomments, hkind, hahead.kind_head.resolve_right ?_⟩
        exact (kind_of_isWord hword).2

theorem lineEnd {s : Statement} (hs : lineRules.Parted s) (hwhole : ∀ t ∈ s.lineEnd, Whole t) :
    SplicesTo (s.lineEnd ++ raw) (s.lineEnd ++ made) ∧ ¬ WordAhead (s.lineEnd ++ raw) := by
  obtain ⟨-, spaces, close, hend, hspaces, hclose⟩ := hs
  have hkinds : ∀ t ∈ spaces, t.kind ≠ .word ∧ t.kind ≠ .spliced := by
    intro t ht
    obtain hspace | hcomment := hspaces t ht
    · exact kind_of_isSpaceLike hspace
    · simp [hcomment]
  have hlast : close.kind ∉ [TokenKind.word, .spliced, .blockComment] := by
    obtain hclose | ⟨rfl, -⟩ := hclose
    · obtain hkind | ⟨text, length, rfl⟩ := lineTerm_or_eq_of_endsLine hclose
      · simp [hkind]
      · simp [Token.kind, Payload.kind]
    · decide
  simp only [List.mem_cons, List.not_mem_nil, or_false, not_or] at hlast
  obtain ⟨hword, hspliced, hcomment⟩ := hlast
  rw [hend] at hwhole ⊢
  refine ⟨h.append fun t ht => ⟨hwhole t ht, ?_⟩, fun hahead => ?_⟩
  · obtain ht | ht := List.mem_append.1 ht
    · exact hkinds t ht
    · rw [List.mem_singleton.1 ht]
      exact ⟨hword, hspliced⟩
  · rw [List.append_assoc] at hahead
    exact (hahead.of_append fun t ht => (hkinds t ht).1).2.kind_head.elim hword hcomment

theorem statement {s : Statement} (hraw : lineRules.Raw s) (hs : lineRules.Parted s)
    (hwhole : ∀ t ∈ s.tokens, Whole t) (hapart : WordsApart s.tokens) :
    SplicesTo (s.tokens ++ raw) ((lineRules.finishStatement s).tokens ++ made) := by
  cases s with
  | emptyLine tokens => exact (h.lineEnd hs hwhole).1
  | inst i =>
    obtain ⟨hbefore, hhead, hargs, hafter⟩ := Inst.forall_tokens_iff.1 hwhole
    obtain ⟨hrest, hend⟩ := h.lineEnd hs hafter
    obtain ⟨hseparators, -⟩ := hs
    rw [Statement.separators, List.forall_mem_append, List.forall_mem_flatMap] at hseparators
    have hleaves : i.head.leaves = [i.head] := Token.leaves_eq (kind_of_isWord hraw.1).1
    have hwords : WordsApart (i.head.leaves ++ i.args.flatMap Arg.tokens) := by
      rw [hleaves]
      refine hapart.infix ⟨i.before, i.after, ?_⟩
      simp [Statement.tokens, Inst.tokens]
    have hspliced := (hrest.spliceArgs hhead (fun a ha => ⟨hseparators.2 a ha, hraw.2 a ha⟩) hargs
      hwords hend).append fun t ht => ⟨hbefore t ht, kind_of_isSpaceLike (hseparators.1 t ht)⟩
    rw [hleaves] at hspliced
    rw [LineRules.finishStatement, finish_eq]
    let joined : Inst := { i with
      head := (Burghard.spliceArgs i.head i.args).1, args := (Burghard.spliceArgs i.head i.args).2 }
    have hjoined : SplicesTo (i.tokens ++ raw) (joined.tokens ++ made) := by
      simpa [joined, Inst.tokens, Statement.lineEnd] using hspliced
    have hself := hjoined.retyped_self
    rw [List.forall_mem_append] at hself
    exact hjoined.retype (List.rel_append (typeInst_retyped hself.1) (List.forall₂_same.2 hself.2))

end SplicesTo

/-- **The words of all statements** put together and typed. -/
theorem splicesTo_statements {raws : List Statement}
    (hraws : ∀ s ∈ raws, lineRules.Raw s ∧ lineRules.Parted s)
    (hwhole : ∀ t ∈ raws.flatMap Statement.tokens, Whole t)
    (hapart : WordsApart (raws.flatMap Statement.tokens)) : SplicesTo
      (raws.flatMap Statement.tokens)
      ((raws.map lineRules.finishStatement).flatMap Statement.tokens) := by
  induction raws with
  | nil => exact .nil
  | cons s raws ih =>
    obtain ⟨⟨hraw, hs⟩, hraws⟩ := List.forall_mem_cons.1 hraws
    rw [List.flatMap_cons] at hwhole hapart ⊢
    obtain ⟨hfirst, hwhole⟩ := List.forall_mem_append.1 hwhole
    obtain ⟨hapart', hmore, -⟩ := List.isChain_append.1 hapart
    exact (ih hraws hwhole hmore).statement hraw hs hfirst hapart'

/-! ## What the tokens are made of -/

/-- **Tokens are parts of one word**, from some place on among all leaves. -/
def PartsAt (made : List Token) (place : Nat) (parts : List Token) : Prop :=
  ∃ earlier later text front back word,
    made = earlier ++ .spliced text (front ++ (parts ++ back)) word :: later ∧
      (earlier.flatMap Token.leaves).length + front.length = place

theorem PartsAt.cons {made parts : List Token} {place : Nat} (h : PartsAt made place parts)
    (u : Token) : PartsAt (u :: made) (u.leaves.length + place) parts := by
  obtain ⟨earlier, later, text, front, back, word, rfl, rfl⟩ := h
  refine ⟨u :: earlier, later, text, front, back, word, rfl, ?_⟩
  rw [List.flatMap_cons, List.length_append, Nat.add_assoc]

theorem partsAt_of_retyped {t u : Token} (h : t.Retyped u) {front parts back : List Token}
    (hleaves : t.leaves = front ++ (parts ++ back)) (hparts : 1 < parts.length)
    (made : List Token) : PartsAt (u :: made) front.length parts := by
  have hlength := congrArg List.length hleaves
  rw [List.length_append, List.length_append] at hlength
  have hmany : 1 < t.leaves.length := by omega
  cases h with
  | plain | quoted | unquoted => exact absurd hmany (Nat.lt_irrefl 1)
  | spliced text own word p q =>
    obtain rfl : own = front ++ (parts ++ back) := hleaves
    exact ⟨[], made, text, front, back, _, rfl, Nat.zero_add _⟩

theorem Whole.kind_of_mem_leaves {t v : Token} (h : Whole t) (hv : v ∈ t.leaves)
    (hkind : v.kind = .word) : t.kind = .word ∨ t.kind = .spliced := by
  cases h with
  | plain text p =>
    obtain rfl := List.mem_singleton.1 hv
    exact .inl hkind
  | quoted =>
    obtain rfl := List.mem_singleton.1 hv
    cases hkind
  | spliced => exact .inr rfl

namespace SplicesTo

variable {raw made : List Token}

/-- **A token stands for the raw tokens at its place.** -/
theorem eq_append_cons {before after : List Token} {u : Token}
    (h : SplicesTo raw (before ++ u :: after)) : ∃ t left right, Whole t ∧ t.Retyped u ∧
      raw = left ++ (t.leaves ++ right) ∧
      left.length = (before.flatMap Token.leaves).length := by
  induction before generalizing raw with
  | nil =>
    cases h with
    | @cons t _ right _ whole retyped => exact ⟨t, [], right, whole, retyped, rfl, rfl⟩
  | cons first before ih =>
    cases h with
    | @cons t _ rest _ whole retyped maximal hrest =>
      obtain ⟨t', left, right, hwhole, hretyped, rfl, hlength⟩ := ih hrest
      refine ⟨t', t.leaves ++ left, right, hwhole, hretyped, (List.append_assoc _ _ _).symm, ?_⟩
      rw [List.flatMap_cons, List.length_append, List.length_append, hlength,
        retyped.length_leaves]

/-- **Two words with only block comments between them** are parts of one token. -/
theorem maximal (h : SplicesTo raw made) {before between after : List Token} {v w : Token}
    (hraw : raw = before ++ v :: (between ++ w :: after)) (hv : v.kind = .word)
    (hw : w.kind = .word) (hbetween : ∀ c ∈ between, c.kind = .blockComment) :
    PartsAt made before.length (v :: (between ++ [w])) := by
  have hahead : ∀ {ts}, (∀ c ∈ ts, c.kind = .blockComment) → WordAhead (ts ++ w :: after) :=
    fun hts => WordAhead.behind hts (.word hw after)
  induction h generalizing before with
  | nil => cases before <;> cases hraw
  | @cons t u raw made whole retyped maximal rest ih =>
    have hbehind : ∀ left, before = t.leaves ++ left →
        raw = left ++ v :: (between ++ w :: after) →
        PartsAt (u :: made) before.length (v :: (between ++ [w])) := by
      rintro left rfl hleft
      rw [List.length_append, retyped.length_leaves]
      exact (ih hleft).cons u
    -- the first word is behind the token, or it is a part of the token
    obtain ⟨left, hbefore, hleft⟩ | ⟨own, hleaves, hown⟩ := List.append_eq_append_iff.1 hraw
    · exact hbehind left hbefore hleft
    cases own with
    | nil => exact hbehind [] (by rw [hleaves, List.append_nil, List.append_nil]) hown.symm
    | cons x own =>
      obtain ⟨rfl, htail⟩ := List.cons.inj hown
      have hmem : v ∈ t.leaves := hleaves ▸ List.mem_append_right _ List.mem_cons_self
      have hend := maximal (whole.kind_of_mem_leaves hmem hv)
      -- the token takes the second word too, as otherwise it would have that word ahead
      obtain ⟨more, rfl, hmore⟩ | ⟨more, rfl, rfl⟩ := List.append_eq_append_iff.1 htail
      · cases more with
        | nil =>
          obtain rfl : w :: after = raw := hmore
          exact absurd (hahead (List.forall_mem_nil _)) hend
        | cons y more =>
          obtain ⟨rfl, -⟩ := List.cons.inj hmore
          have hparts : t.leaves = before ++ (v :: (between ++ [w]) ++ more) := by
            rw [hleaves, List.cons_append, List.append_assoc]
            rfl
          exact partsAt_of_retyped retyped hparts (by simp) made
      · exact absurd (hahead fun c hc => hbetween c (List.mem_append_right _ hc)) hend

end SplicesTo

/-! ## Trees -/

/-- **The tokens of a program become those of its tree.** -/
theorem parse_splicesTo (src : Bytes) : ∃ tree tail, Dialect.burghard.parse src = .ok tree ∧
    SplicesTo (lex src ++ tail) tree.tokens ∧ (tail = [] ∨ tail = [Token.endOfInput]) := by
  have htokens := tokensOf_locate .codePoint {} (lex src)
  have hreads := lineRules_reads_lex src
  rw [← htokens] at hreads
  obtain ⟨ss, raws, tail, hall, hss, hraws, hraw, htail⟩ :=
    StatementReader.readAll_spec lineRules.keeps_parted hreads
  rw [htokens] at hraw
  have hstatements : Dialect.burghard.statements src = .ok ss := hall
  refine ⟨Dialect.burghard.assemble (ss.map (·.2)), tail, ?_, ?_, htail⟩
  · rw [Dialect.parse, hstatements]
    rfl
  · have hwhole : ∀ t ∈ lex src ++ tail, Whole t := by
      refine List.forall_mem_append.2 ⟨fun t ht => whole_of_mem_lex ht, ?_⟩
      obtain rfl | rfl := htail
      · exact List.forall_mem_nil _
      · exact List.forall_mem_singleton.2 (.plain _ _)
    have hapart : WordsApart (lex src ++ tail) := by
      obtain rfl | rfl := htail
      · rw [List.append_nil]
        exact wordsApart_lex src
      · refine List.isChain_append.2 ⟨wordsApart_lex src, List.isChain_singleton _, ?_⟩
        rintro t - u hu ⟨-, h⟩
        obtain rfl : Token.endOfInput = u := Option.some.inj hu
        cases h
    rw [Node.tokens, Dialect.statements_assemble, hss, ← hraw]
    rw [← hraw] at hwhole hapart
    exact splicesTo_statements hraws hwhole hapart

theorem Whole.of_within {t u : Token} (ht : Whole t) (h : t.Retyped u) {text : Bytes}
    {parts : List Token} {word : Option Token} (hin : Token.Within (.spliced text parts word) u) :
    t.leaves = parts ∧ Interrupted parts ∧ text = texts parts ∧
      (Token.spliced text parts word).unwrap.text = texts (words parts) := by
  cases h with
  | plain | unquoted => cases hin
  | quoted => cases hin with | quoted hin => cases hin
  | spliced =>
    cases ht with
    | spliced hparts errors =>
      cases hin with
      | self => exact ⟨rfl, hparts, rfl, rfl⟩
      | part hpart hin =>
        -- the parts are words and comments, which wrap nothing
        have hkind := hparts.forall_kind _ hpart
        cases hin with
        | self | quoted | part | word => exact hkind.elim nofun nofun
      | word hin => cases hin

theorem isPrefix_of_isPrefix_append {ts us vs : List Token} (h : ts <+: us ++ vs)
    (hts : ∀ t ∈ ts, t ∉ vs) : ts <+: us := by
  obtain ⟨rest, e⟩ := h
  obtain ⟨more, rfl, -⟩ | ⟨more, rfl, rfl⟩ := List.append_eq_append_iff.1 e
  · exact List.prefix_append ts more
  · cases more with
    | nil => simp
    | cons t more => exact absurd List.mem_cons_self (hts t (by simp))

/-- **Words are put together faithfully and as far as possible.** The parts of a token that has been
put together are the tokens of the program at its place. -/
theorem parse_splicedWords (src : Bytes) : WordsApart (lex src) ∧
    ∃ tree, Dialect.burghard.parse src = .ok tree ∧
      (∀ before u after, tree.tokens = before ++ u :: after → ∀ text parts word,
        Token.Within (.spliced text parts word) u → Interrupted parts ∧
          parts <+: (lex src).drop (before.flatMap Token.leaves).length ∧
          text = texts parts ∧
          (Token.spliced text parts word).unwrap.text = texts (words parts)) ∧
      ∀ before v between w after, lex src = before ++ v :: (between ++ w :: after) →
        v.kind = .word → w.kind = .word → (∀ c ∈ between, c.kind = .blockComment) →
        PartsAt tree.tokens before.length (v :: (between ++ [w])) := by
  obtain ⟨tree, tail, hparse, hsplices, htail⟩ := parse_splicesTo src
  refine ⟨wordsApart_lex src, tree, hparse, ?_, ?_⟩
  · intro before u after hu text parts word hin
    rw [hu] at hsplices
    obtain ⟨t, left, right, hwhole, hretyped, hraw, hlength⟩ := hsplices.eq_append_cons
    obtain ⟨hleaves, hparts, htext, hword⟩ := hwhole.of_within hretyped hin
    refine ⟨hparts, ?_, htext, hword⟩
    have hplace : parts <+: (lex src ++ tail).drop (before.flatMap Token.leaves).length := by
      rw [hraw, ← hlength, List.drop_left, hleaves]
      exact List.prefix_append parts right
    rw [List.drop_append] at hplace
    refine isPrefix_of_isPrefix_append hplace fun t ht hend => ?_
    have hmem := List.mem_of_mem_drop hend
    obtain rfl | rfl := htail
    · cases hmem
    · obtain rfl := List.mem_singleton.1 hmem
      exact (hparts.forall_kind _ ht).elim nofun nofun
  · intro before v between w after hraw hv hw hbetween
    have hwhole : lex src ++ tail = before ++ v :: (between ++ w :: (after ++ tail)) := by
      rw [hraw]
      simp
    exact hsplices.maximal hwhole hv hw hbetween

end Burghard

end WhitespaceAsm

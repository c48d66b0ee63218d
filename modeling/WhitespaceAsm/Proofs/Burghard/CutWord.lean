import WhitespaceAsm.Proofs.Burghard.CommentInWord
import WhitespaceAsm.Proofs.Burghard.Parse
import WhitespaceAsm.Proofs.FlagSet
import WhitespaceAsm.Proofs.Tree.Outline

/-!
# Words that are cut

A word of a program is cut when it becomes two words with a block comment between them. The
arguments that are read are cut in the same way, and putting the words together undoes the cuts.

* **`Cut`**, `CutArgs`: tokens and arguments some of whose words are cut;
* `Bare`, `SameWord`, **`spliceArgs_sameWord`**: cut words put together;
* `SameWord.typeArg`, **`finish_outline`**: an instruction with cut words.
-/

namespace WhitespaceAsm.Burghard

/-- **Tokens some of whose words are cut.** -/
inductive Cut : List Located → List Located → Prop
  | nil : Cut [] []
  | same {t t' : Located} {ts ts' : List Located} (token : t.token = t'.token)
      (raw : t.token.kind ≠ .spliced) (rest : Cut ts ts') : Cut (t :: ts) (t' :: ts')
  | word {t first between second : Located} {ts ts' : List Located} {u v : Bytes}
      (token : t.token = word (u ++ v)) (first_token : first.token = word u)
      (between_kind : between.token.kind = .blockComment) (second_token : second.token = word v)
      (rest : Cut ts ts') : Cut (t :: ts) (first :: between :: second :: ts')

/-- **Arguments some of whose words are cut.** -/
inductive CutArgs : List Arg → List Arg → Prop
  | nil : CutArgs [] []
  | same {a : Arg} {args args' : List Arg} (raw : a.token.kind ≠ .spliced)
      (rest : CutArgs args args') : CutArgs (a :: args) (a :: args')
  | word {sep : List Token} {between : Token} {args args' : List Arg} (u v : Bytes)
      (between_kind : between.kind = .blockComment) (rest : CutArgs args args') :
      CutArgs (⟨sep, word (u ++ v)⟩ :: args) (⟨sep, word u⟩ :: ⟨[between], word v⟩ :: args')

theorem cut_locate {u : ColumnUnit} {ts : List Token} (h : ∀ t ∈ ts, t.kind ≠ .spliced)
    (p p' : Pos) : Cut (locate u p ts) (locate u p' ts) := by
  induction ts generalizing p p' with
  | nil => exact .nil
  | cons t ts ih =>
    obtain ⟨ht, hts⟩ := List.forall_mem_cons.1 h
    exact .same rfl ht (ih hts _ _)

theorem cut_locate_word {u : ColumnUnit} {before after : List Token}
    (hbefore : ∀ t ∈ before, t.kind ≠ .spliced) (hafter : ∀ t ∈ after, t.kind ≠ .spliced)
    (x y c : Bytes) (p p' : Pos) :
    Cut (locate u p (before ++ word (x ++ y) :: after))
      (locate u p' (before ++ word x :: comment c :: word y :: after)) := by
  induction before generalizing p p' with
  | nil => exact .word rfl rfl rfl rfl (cut_locate hafter _ _)
  | cons t before ih =>
    obtain ⟨ht, hbefore⟩ := List.forall_mem_cons.1 hbefore
    exact .same rfl ht (ih hbefore _ _)

/-! ## Reading -/

theorem isSpaceLike_of_isWord {t : Token} (h : isWord t) : t.isSpaceLike = false := by
  simp only [isWord, Bool.or_eq_true, beq_iff_eq] at h
  obtain h | h := h
  · simp [Token.isSpaceLike, h]
  · simp [Token.isSpaceLike, h]

theorem isSpaceLike_of_blockComment {t : Token} (h : t.kind = .blockComment) :
    t.isSpaceLike = true := by
  simp [Token.isSpaceLike, h]

theorem readArgs_cons {t : Located} (h : isWord t.token) (ts : List Located) :
    readArgs Token.isSpaceLike isWord [] (t :: ts) =
      { readArgs Token.isSpaceLike isWord [] ts with
        args := ⟨[], t.token⟩ :: (readArgs Token.isSpaceLike isWord [] ts).args } := by
  rw [readArgs, isSpaceLike_of_isWord h, if_neg Bool.false_ne_true, if_pos h]

namespace Cut

variable {ts ts' : List Located} (h : Cut ts ts')

include h

/-- **Reading arguments** cuts the words of arguments and leaves what separates them. -/
theorem readArgs (sep : List Token) :
    let read := readArgs Token.isSpaceLike isWord sep ts
    let read' := WhitespaceAsm.readArgs Token.isSpaceLike isWord sep ts'
    CutArgs read.args read'.args ∧ read.after = read'.after ∧ Cut read.rest read'.rest := by
  induction h generalizing sep with
  | nil => exact ⟨.nil, rfl, .nil⟩
  | @same t t' ts ts' token raw rest ih =>
    rw [WhitespaceAsm.readArgs, WhitespaceAsm.readArgs, ← token]
    by_cases hsep : t.token.isSpaceLike
    · rw [if_pos hsep, if_pos hsep]
      exact ih _
    rw [if_neg hsep, if_neg hsep]
    by_cases hword : isWord t.token
    · obtain ⟨hargs, hafter, hrest⟩ := ih []
      rw [if_pos hword, if_pos hword]
      exact ⟨.same raw hargs, hafter, hrest⟩
    · rw [if_neg hword, if_neg hword]
      exact ⟨.nil, rfl, .same token raw rest⟩
  | @word t first between second ts ts' u v token first_token between_kind second_token rest ih =>
    obtain ⟨hargs, hafter, hrest⟩ := ih []
    have hbetween := isSpaceLike_of_blockComment between_kind
    simp only [WhitespaceAsm.readArgs, token, first_token, second_token, hbetween]
    exact ⟨.word u v between_kind hargs, hafter, hrest⟩

theorem spaces :
    (ts.takeWhile (·.token.isSpaceLike)).map (·.token)
        = (ts'.takeWhile (·.token.isSpaceLike)).map (·.token) ∧
      Cut (ts.drop (ts.takeWhile (·.token.isSpaceLike)).length)
        (ts'.drop (ts'.takeWhile (·.token.isSpaceLike)).length) := by
  induction h with
  | nil => exact ⟨rfl, .nil⟩
  | @same t t' ts ts' token raw rest ih =>
    simp only [List.takeWhile_cons, ← token]
    by_cases hsep : t.token.isSpaceLike
    · simp only [if_pos hsep, List.map_cons, ih.1, ← token]
      exact ⟨trivial, ih.2⟩
    · simp only [if_neg hsep]
      exact ⟨trivial, .same token raw rest⟩
  | @word t first between second ts ts' u v token first_token between_kind second_token rest ih =>
    simp only [List.takeWhile_cons, token, first_token]
    exact ⟨rfl, .word token first_token between_kind second_token rest⟩

theorem readLineEnd {line : List Token} {rest : List Located}
    (hline : readLineEnd endsLine ts = .ok (line, rest)) :
    ∃ rest', WhitespaceAsm.readLineEnd endsLine ts' = .ok (line, rest') ∧ Cut rest rest' := by
  -- a word does not end a line
  have hword : ∀ text, endsLine (Burghard.word text) = false := fun _ => rfl
  cases h with
  | nil =>
    cases hline
    exact ⟨[], rfl, .nil⟩
  | @same t t' ts ts' token raw hrest =>
    simp only [WhitespaceAsm.readLineEnd, takeToken, ← token] at hline ⊢
    by_cases hcomment : t.token.kind == .lineComment
    · simp only [if_pos hcomment] at hline ⊢
      cases hrest with
      | nil =>
        cases hline
        exact ⟨[], rfl, .nil⟩
      | @same u u' us us' token raw hrest =>
        simp only [← token] at hline ⊢
        split at hline
        · next hends =>
          cases hline
          rw [if_pos hends]
          exact ⟨us', rfl, hrest⟩
        · cases hline
      | word token => simp [token, hword] at hline
    · simp only [if_neg hcomment, ← token] at hline ⊢
      split at hline
      · next hends =>
        cases hline
        rw [if_pos hends]
        exact ⟨ts', rfl, hrest⟩
      · cases hline
  | @word t _ _ _ _ _ u v token =>
    have hcomment : ((Burghard.word (u ++ v)).kind == .lineComment) = false := rfl
    simp [WhitespaceAsm.readLineEnd, takeToken, token, hcomment, hword] at hline

end Cut

/-! ## Putting words together -/

/-- **A token that is a word**, with or without comments inside. -/
inductive Bare (text : Bytes) (errors : FlagSet WordError) : Token → Prop
  | plain : Bare text errors (.plain text (.word errors))
  | spliced (whole : Bytes) (parts : List Token) :
      Bare text errors (.spliced whole parts (some (.plain text (.word errors))))

/-- **Tokens that stand for the same word**, or are the same token without being words. -/
def SameWord (t t' : Token) : Prop :=
  (∃ text errors, Bare text errors t ∧ Bare text errors t') ∨
    t = t' ∧ t.kind ≠ .word ∧ t.kind ≠ .spliced

theorem SameWord.refl {t : Token} (h : t.kind ≠ .spliced) : SameWord t t := by
  by_cases hword : t.kind = .word
  · obtain ⟨text, errors, rfl⟩ := eq_plain_of_kind hword
    exact .inl ⟨text, errors, .plain, .plain⟩
  · exact .inr ⟨rfl, hword, h⟩

namespace Bare

variable {text : Bytes} {errors : FlagSet WordError} {t : Token} (h : Bare text errors t)

include h

theorem unwrap_eq : t.unwrap = .plain text (.word errors) := by
  cases h with
  | plain => rfl
  | spliced whole parts => rfl

theorem isWordLike : (t.kind == .word || t.kind == .spliced) = true := by
  cases h with
  | plain => rfl
  | spliced whole parts => rfl

theorem kind_ne_quoted : t.kind ≠ .quoted := by
  cases h with
  | plain => simp [Token.kind, Payload.kind]
  | spliced whole parts => simp [Token.kind]

theorem splice (between : List Token) (more : Bytes) (errors' : FlagSet WordError) :
    Bare (text ++ more) (errors ∪ errors') (splice t between (.plain more (.word errors'))) := by
  cases h with
  | plain => exact .spliced _ _
  | spliced whole parts => exact .spliced _ _

end Bare

theorem Bare.splice_word {text : Bytes} {errors : FlagSet WordError} {t : Token}
    (h : Bare text errors t) (sep : List Token) (between : Token) (u v : Bytes) :
    Bare (text ++ (u ++ v)) errors
      (Burghard.splice (Burghard.splice t sep (word u)) [between] (word v)) := by
  have hparts := (h.splice sep u ∅).splice [between] v ∅
  rwa [List.append_assoc, FlagSet.union_empty, FlagSet.union_empty] at hparts

theorem SameWord.shouldSplice_eq {t t' : Token} (h : SameWord t t') (sep : List Token)
    {rhs rhs' : Token} (hrhs : rhs.kind = rhs'.kind) :
    shouldSplice t sep rhs = shouldSplice t' sep rhs' := by
  have hkind : (t.kind == .word || t.kind == .spliced)
      = (t'.kind == .word || t'.kind == .spliced) := by
    obtain ⟨text, errors, ht, ht'⟩ | ⟨rfl, -⟩ := h
    · rw [ht.isWordLike, ht'.isWordLike]
    · rfl
  rw [shouldSplice, shouldSplice, hkind, hrhs]

theorem SameWord.bare_of_shouldSplice {t t' rhs : Token} {sep : List Token} (h : SameWord t t')
    (hsplice : shouldSplice t sep rhs) :
    ∃ text errors, Bare text errors t ∧ Bare text errors t' := by
  refine h.resolve_right ?_
  rintro ⟨-, hword, hspliced⟩
  exact (shouldSplice_iff.1 hsplice).2.1.elim hword hspliced

theorem Bare.spliceArgs_word {text : Bytes} {errors : FlagSet WordError} {t : Token}
    (h : Bare text errors t) {between : Token} (hbetween : between.kind = .blockComment)
    (v : Bytes) (args : List Arg) : spliceArgs t (⟨[between], word v⟩ :: args)
      = spliceArgs (Burghard.splice t [between] (word v)) args := by
  refine spliceArgs_of_shouldSplice ?_ args
  have hword : ((word v).kind == .word) = true := rfl
  rw [shouldSplice, h.isWordLike, hword]
  simp [hbetween]

/-- **Putting words together undoes the cuts.** -/
theorem spliceArgs_sameWord {args args' : List Arg} (h : CutArgs args args') {lhs lhs' : Token}
    (hlhs : SameWord lhs lhs') :
    SameWord (spliceArgs lhs args).1 (spliceArgs lhs' args').1 ∧
      List.Forall₂ (fun a a' => SameWord a.token a'.token) (spliceArgs lhs args).2
        (spliceArgs lhs' args').2 := by
  induction h generalizing lhs lhs' with
  | nil => exact ⟨hlhs, .nil⟩
  | @same a args args' raw rest ih =>
    obtain ⟨sep, token⟩ := a
    have hsame : shouldSplice lhs sep token = shouldSplice lhs' sep token :=
      hlhs.shouldSplice_eq sep rfl
    by_cases hsplice : shouldSplice lhs sep token
    · obtain ⟨text, errors, ht, ht'⟩ := hlhs.bare_of_shouldSplice hsplice
      obtain ⟨more, errors', rfl⟩ := eq_plain_of_kind (shouldSplice_iff.1 hsplice).2.2
      rw [spliceArgs_of_shouldSplice hsplice, spliceArgs_of_shouldSplice (hsame ▸ hsplice)]
      exact ih (.inl ⟨_, _, ht.splice _ _ _, ht'.splice _ _ _⟩)
    · rw [spliceArgs_of_not_shouldSplice hsplice, spliceArgs_of_not_shouldSplice (hsame ▸ hsplice)]
      obtain ⟨hhead, hargs⟩ := ih (.refl raw)
      exact ⟨hlhs, .cons hhead hargs⟩
  | @word sep between args args' u v between_kind rest ih =>
    have hsame : shouldSplice lhs sep (word (u ++ v)) = shouldSplice lhs' sep (word u) :=
      hlhs.shouldSplice_eq sep rfl
    by_cases hsplice : shouldSplice lhs sep (word (u ++ v))
    · obtain ⟨text, errors, ht, ht'⟩ := hlhs.bare_of_shouldSplice hsplice
      have hwhole := ht.splice sep (u ++ v) ∅
      rw [FlagSet.union_empty] at hwhole
      have hfirst : Bare _ _ (splice lhs' sep (word u)) := ht'.splice sep u ∅
      rw [spliceArgs_of_shouldSplice hsplice, spliceArgs_of_shouldSplice (hsame ▸ hsplice),
        hfirst.spliceArgs_word between_kind]
      exact ih (.inl ⟨_, _, hwhole, ht'.splice_word sep between u v⟩)
    · have hfirst : Bare u ∅ (word u) := .plain
      have hjoined := hfirst.splice [between] v ∅
      rw [FlagSet.union_empty] at hjoined
      rw [spliceArgs_of_not_shouldSplice hsplice, spliceArgs_of_not_shouldSplice (hsame ▸ hsplice),
        hfirst.spliceArgs_word between_kind]
      have hwhole : SameWord (word (u ++ v)) (splice (word u) [between] (word v)) :=
        .inl ⟨_, _, .plain, hjoined⟩
      obtain ⟨hhead, hargs⟩ := ih hwhole
      exact ⟨hlhs, .cons hhead hargs⟩

/-! ## Typing -/

namespace SameWord

variable {t t' : Token} (h : SameWord t t')

include h

theorem unwrap_eq : t.unwrap = t'.unwrap := by
  obtain ⟨text, errors, ht, ht'⟩ | ⟨rfl, -⟩ := h
  · rw [ht.unwrap_eq, ht'.unwrap_eq]
  · rfl

theorem unwrap_retype (p : Payload) : (t.retype p).unwrap = (t'.retype p).unwrap := by
  rw [Token.unwrap_retype, Token.unwrap_retype, h.unwrap_eq]

theorem quoted_iff : t.kind = .quoted ↔ t'.kind = .quoted := by
  obtain ⟨text, errors, ht, ht'⟩ | ⟨rfl, -⟩ := h
  · exact iff_of_false ht.kind_ne_quoted ht'.kind_ne_quoted
  · rfl

theorem unwrap_stringArg : (stringArg t).unwrap = (stringArg t').unwrap := by
  obtain ⟨text, errors, ht, ht'⟩ | ⟨rfl, -⟩ := h
  · have hstring : ∀ {s : Token}, Bare text errors s → (stringArg s).unwrap
        = .plain text (.string { literal := text, unescaped := text, quotes := .bare }) := by
      intro s hs
      cases hs with
      | plain => rfl
      | spliced whole parts => rfl
    rw [hstring ht, hstring ht']
  · rfl

theorem typeArg (kind : ArgKind) : (typeArg kind t).1.unwrap = (Burghard.typeArg kind t').1.unwrap ∧
    (Burghard.typeArg kind t).2 = (Burghard.typeArg kind t').2 := by
  unfold Burghard.typeArg
  simp only [h.unwrap_eq, ne_eq, h.quoted_iff]
  split
  · exact ⟨h.unwrap_retype _, rfl⟩
  split
  · exact ⟨h.unwrap_retype _, rfl⟩
  split
  · exact ⟨h.unwrap_retype _, rfl⟩
  · exact ⟨h.unwrap_stringArg, rfl⟩

end SameWord

/-- Arguments that stand for the same words. -/
abbrev SameWords : List Arg → List Arg → Prop :=
  List.Forall₂ fun a a' => SameWord a.token a'.token

theorem SameWords.payloads {args args' : List Arg} (h : SameWords args args') :
    args.map (·.token.unwrap.payload?) = args'.map (·.token.unwrap.payload?) := by
  induction h with
  | nil => rfl
  | cons hword _ ih => rw [List.map_cons, List.map_cons, hword.unwrap_eq, ih]

theorem typeArgs_sameWords {args args' : List Arg} (h : SameWords args args')
    (kinds : List ArgKind) :
    (typeArgs kinds args).1.map (·.token.unwrap.payload?)
        = (typeArgs kinds args').1.map (·.token.unwrap.payload?) ∧
      (typeArgs kinds args).2 = (typeArgs kinds args').2 := by
  induction h generalizing kinds with
  | nil => exact ⟨rfl, rfl⟩
  | @cons a a' args args' hword hargs ih =>
    cases kinds with
    | nil => exact ⟨SameWords.payloads (.cons hword hargs), rfl⟩
    | cons kind kinds =>
      obtain ⟨hpayloads, hok⟩ := ih kinds
      obtain ⟨hunwrap, hfits⟩ := hword.typeArg kind
      by_cases hkind : kind = .word
      · simp only [typeArgs, hkind, if_true, List.map_cons, hpayloads, hok, hword.unwrap_eq]
        exact ⟨trivial, trivial⟩
      · simp only [typeArgs, hkind, if_false, List.map_cons, hpayloads, hok, hunwrap, hfits]
        exact ⟨trivial, trivial⟩

theorem payloads_stringArgs {args args' : List Arg} (h : SameWords args args') :
    (args.map fun a => { a with token := (typeArg .string a.token).1 }).map
        (·.token.unwrap.payload?)
      = (args'.map fun a => { a with token := (typeArg .string a.token).1 }).map
        (·.token.unwrap.payload?) := by
  induction h with
  | nil => rfl
  | cons hword _ ih =>
    simp only [List.map_cons, (hword.typeArg .string).1, ih]

theorem resolve_congr (i i' : Inst) {old : Opcode}
    (hi : i.head.unwrap.payload? = some (.mnemonic old))
    (hi' : i'.head.unwrap.payload? = some (.mnemonic old))
    (hlength : i.args.length = i'.args.length) (overloads : Option (List Signature)) :
    (i.resolve overloads).opcode = (i'.resolve overloads).opcode ∧
      (i.resolve overloads).validArity = (i'.resolve overloads).validArity ∧
      (i.resolve overloads).validTypes = (i'.resolve overloads).validTypes := by
  have hopcode : i.opcode = i'.opcode := by rw [Inst.opcode, Inst.opcode, hi, hi']
  unfold Inst.resolve
  rw [hlength]
  split
  · exact ⟨hopcode, rfl, rfl⟩
  · exact ⟨hopcode, rfl, rfl⟩
  · split
    · refine ⟨?_, rfl, rfl⟩
      exact (Inst.opcode_of_setOpcode hi rfl).trans (Inst.opcode_of_setOpcode hi' rfl).symm
    · refine ⟨?_, rfl, rfl⟩
      exact (Inst.opcode_of_setOpcode hi rfl).trans (Inst.opcode_of_setOpcode hi' rfl).symm

/-- **An instruction is typed by the words** that its head and its arguments stand for. -/
theorem typeInst_outline {i i' : Inst} (hhead : SameWord i.head i'.head)
    (hargs : SameWords i.args i'.args) : (typeInst i).outline = (typeInst i').outline := by
  have hlength := hargs.length_eq
  have hmnemonic : ∀ t : Token, (t.retype (.mnemonic .invalid)).unwrap.payload?
      = some (.mnemonic .invalid) := fun t => by rw [Token.unwrap_retype]; rfl
  have hresolve := resolve_congr
    { i with head := i.head.retype (.mnemonic .invalid) }
    { i' with head := i'.head.retype (.mnemonic .invalid) }
    (hmnemonic i.head) (hmnemonic i'.head) hlength
  unfold typeInst
  dsimp only
  rw [← hhead.unwrap_eq, ← hlength]
  generalize mnemonics.lookup? i.head.unwrap.text = overloads
  obtain ⟨hopcode, harity, htypes⟩ := hresolve overloads
  cases overloads with
  | none => exact Inst.outline_congr hopcode harity htypes (payloads_stringArgs hargs)
  | some signatures =>
    dsimp only
    cases Signature.select? signatures i.args.length with
    | none =>
      refine Inst.outline_congr hopcode harity htypes ?_
      rw [(Inst.resolve_frame _ _).2.1, (Inst.resolve_frame _ _).2.1]
      exact hargs.payloads
    | some s =>
      obtain ⟨hpayloads, hok⟩ := typeArgs_sameWords hargs s.args
      exact Inst.outline_congr hopcode harity hok hpayloads

/-- **An instruction with cut words** means the same. -/
theorem finish_outline {head head' : Token} {args args' : List Arg}
    (h : CutArgs (⟨[], head⟩ :: args) (⟨[], head'⟩ :: args'))
    (before before' after after' : List Token) :
    (lineRules.finish { before, head, args, after }).outline
      = (lineRules.finish
        { before := before', head := head', args := args', after := after' }).outline := by
  have hwords : SameWord (spliceArgs head args).1 (spliceArgs head' args').1 ∧
      SameWords (spliceArgs head args).2 (spliceArgs head' args').2 := by
    cases h with
    | same raw rest => exact spliceArgs_sameWord rest (.refl raw)
    | @word _ between _ _ u v between_kind rest =>
      have hfirst : Bare u ∅ (word u) := .plain
      have hjoined := hfirst.splice [between] v ∅
      rw [FlagSet.union_empty] at hjoined
      rw [hfirst.spliceArgs_word between_kind]
      exact spliceArgs_sameWord rest (.inl ⟨_, _, .plain, hjoined⟩)
  rw [finish_eq, finish_eq]
  exact typeInst_outline hwords.1 hwords.2

end WhitespaceAsm.Burghard

import WhitespaceAsm.Burghard.Parse
import WhitespaceAsm.Proofs.Burghard.Lex
import WhitespaceAsm.Proofs.Burghard.Splice
import WhitespaceAsm.Proofs.MnemonicTable
import WhitespaceAsm.Proofs.Tree.Reading

/-!
# The statements of Burghard programs

* `lineRules_reads_lex`: the tokens of every program can be read as lines;
* `standsForWord_of_mem_lex`, `standsForWord_of_raw`: heads and arguments stand for words;
* `spelling_typeArg`, **`matchesKind_typeArg`**: an argument that is typed, and the flag beside it;
* `finish_sameSpelling`, **`finish_resolvedBy`**: an instruction after it has been read;
* **`statements_reading`**: every program is read.
-/

namespace WhitespaceAsm.Burghard

/-! ## Lines -/

theorem eq_lf_of_next_lineComment {b c : UInt8} {rest more : Bytes}
    (e : b :: rest = (next b rest).text ++ c :: more) (h : (next b rest).kind = .lineComment) :
    c = Ascii.lf := by
  revert e h
  refine next_cases (motive := fun t => b :: rest = t.text ++ c :: more → t.kind = .lineComment →
    c = Ascii.lf) b rest ?_ ?_ ?_ ?_ ?_ ?_ ?_
  · intro n _ _ e _
    exact LineComment.lf_of_text_read e
  · intro _ _ h; cases h
  · intro _ _ h; cases h
  · intro _ _ h; cases h
  · intro _ _ h; cases h
  · intro _ _ h; cases h
  · intro _ _ h; cases h

theorem lineTerm_or_eq_of_endsLine {t : Token} (h : endsLine t) :
    t.kind = .lineTerm ∨ ∃ text length, t = .plain text (.error .invalidUtf8 length) := by
  unfold endsLine at h
  split at h
  · exact .inl rfl
  · exact .inr ⟨_, _, rfl⟩
  · cases h

theorem lineRules_reads_lex (src : Bytes) : lineRules.Reads (lex src) where
  classes := by
    refine forall_mem_lex (P := fun t => lineRules.separates t ∨ lineRules.isWord t ∨
      t.kind = .lineComment ∨ lineRules.endsLine t) (fun b rest => ?_)
      (fun _ _ _ => .inr (.inr (.inr rfl))) src
    refine next_cases (motive := fun t => lineRules.separates t ∨ lineRules.isWord t ∨
      t.kind = .lineComment ∨ lineRules.endsLine t) b rest ?_ ?_ ?_ ?_ ?_ ?_ ?_
    · exact fun _ _ _ => .inr (.inr (.inl rfl))
    · exact fun _ => .inl rfl
    · exact fun _ => .inl rfl
    · exact fun _ => .inl rfl
    · exact fun _ => .inr (.inr (.inr rfl))
    · exact fun _ => .inr (.inl rfl)
    · exact fun _ => .inr (.inl rfl)
  chain := by
    refine isChain_lex (fun b rest c more e h => ?_) (fun _ _ _ _ => rfl) src
    rw [eq_lf_of_next_lineComment e h]
    rfl

theorem standsForWord_of_mem_lex {src : Bytes} {t : Token} (ht : t ∈ lex src) (h : isWord t) :
    StandsForWord t := by
  revert h
  refine forall_mem_lex (P := fun t => isWord t → StandsForWord t) (fun b rest => ?_)
    (fun _ _ _ h => by cases h) src t ht
  refine next_cases (motive := fun t => isWord t → StandsForWord t) b rest ?_ ?_ ?_ ?_ ?_ ?_ ?_
  · intro _ _ _ h; cases h
  · intro _ h; cases h
  · intro _ h; cases h
  · intro _ h; cases h
  · intro _ h; cases h
  · exact fun _ _ => ⟨_, _, rfl⟩
  · exact fun _ _ => ⟨_, _, rfl⟩

/-! ## Typing arguments -/

theorem matchesKind_retype (p : Payload) (t : Token) (kind : ArgKind) :
    (t.retype p).matchesKind kind = (Token.plain [] p).matchesKind kind := by
  unfold Token.matchesKind
  rw [Token.unwrap_retype]
  rfl

theorem spelling_stringArg {t : Token} (h : StandsForWord t) :
    (stringArg t).spelling = t.spelling := by
  unfold stringArg
  split
  · rfl
  · exact Token.spelling_retype (by simp [Payload.kind]) h.stands

theorem matchesKind_stringArg (t : Token) (kind : ArgKind) :
    (stringArg t).matchesKind kind = decide (kind = .string) := by
  unfold stringArg
  split
  · cases kind <;> rfl
  · rw [matchesKind_retype]
    cases kind <;> rfl

theorem spelling_typeArg (kind : ArgKind) {t : Token} (h : StandsForWord t) :
    (typeArg kind t).1.spelling = t.spelling := by
  unfold typeArg
  dsimp only
  split
  · exact Token.spelling_retype (by simp [Payload.kind]) h.stands
  split
  · exact Token.spelling_retype (by simp [Payload.kind]) h.stands
  split
  · exact Token.spelling_retype (by simp [Payload.kind]) h.stands
  · exact spelling_stringArg h

/-- **The flag beside an argument** says whether the argument is of the kind that is expected. No
argument is read as a word or as a mnemonic. -/
theorem matchesKind_typeArg {kind : ArgKind} (hword : kind ≠ .word) (hmnemonic : kind ≠ .mnemonic)
    (t : Token) : (typeArg kind t).1.matchesKind kind = (typeArg kind t).2 := by
  unfold typeArg
  dsimp only
  split
  · next hlabel =>
    subst hlabel
    exact matchesKind_retype _ t .label
  split
  · rw [matchesKind_retype]
    cases kind <;> first | rfl | contradiction
  split
  · next hinteger =>
    rw [matchesKind_retype]
    obtain ⟨rfl | ⟨rfl, -⟩, -⟩ := hinteger
    · rfl
    · rfl
  · exact matchesKind_stringArg t kind

theorem typeArgs_spec {kinds : List ArgKind} {args : List Arg}
    (hlength : kinds.length = args.length) (hkinds : ArgKind.mnemonic ∉ kinds)
    (hargs : ∀ a ∈ args, StandsForWord a.token) :
    (typeArgs kinds args).1.length = args.length ∧
      ((typeArgs kinds args).1.flatMap Arg.tokens).map Token.spelling
        = (args.flatMap Arg.tokens).map Token.spelling ∧
      ((typeArgs kinds args).1.zip kinds).all (fun (a, kind) => a.token.matchesKind kind)
        = (typeArgs kinds args).2 := by
  induction kinds generalizing args with
  | nil =>
    cases args with
    | nil => exact ⟨rfl, rfl, rfl⟩
    | cons a args => cases hlength
  | cons kind kinds ih =>
    cases args with
    | nil => cases hlength
    | cons a args =>
      obtain ⟨ha, hargs⟩ := List.forall_mem_cons.1 hargs
      rw [List.mem_cons, not_or] at hkinds
      obtain ⟨hlen, hspelling, hall⟩ := ih (Nat.succ.inj hlength) hkinds.2 hargs
      rw [typeArgs]
      by_cases hword : kind = .word
      · obtain ⟨text, errors, hunwrap⟩ := ha
        have hmatches : a.token.matchesKind .word = true := by
          simp [Token.matchesKind, hunwrap, Token.payload?]
        simp only [hword, if_true]
        refine ⟨by rw [List.length_cons, List.length_cons, hlen], ?_, ?_⟩
        · simp only [List.flatMap_cons, List.map_append, hspelling, Arg.tokens]
        · rw [List.zip_cons_cons, List.all_cons, hall]
          simp [hmatches]
      · have hmatches := matchesKind_typeArg hword (Ne.symm hkinds.1) a.token
        simp only [hword, if_false]
        refine ⟨by rw [List.length_cons, List.length_cons, hlen], ?_, ?_⟩
        · simp only [List.flatMap_cons, List.map_append, hspelling, Arg.tokens, List.map_cons,
            List.map_nil, spelling_typeArg kind ha]
        · rw [List.zip_cons_cons, List.all_cons, hall]
          simp [hmatches]

/-! ## Instructions -/

theorem lookup?_spec {text : Bytes} {signatures : List Signature}
    (h : mnemonics.lookup? text = some signatures) :
    signatures ≠ [] ∧ ∀ s ∈ signatures, ArgKind.mnemonic ∉ s.args := by
  obtain ⟨e, he, -, rfl⟩ := MnemonicTable.lookup?_ofList h
  clear h
  revert e
  decide

theorem typeInst_typedFrom {i : Inst} (hargs : ∀ a ∈ i.args, StandsForWord a.token) :
    (typeInst i).TypedFrom { i with head := i.head.retype (.mnemonic .invalid) }
      (mnemonics.lookup? i.head.unwrap.text) := by
  -- all that matters of the table from here on is what it says of its overloads
  have hspec := @lookup?_spec i.head.unwrap.text
  unfold typeInst
  dsimp only
  revert hspec
  generalize mnemonics.lookup? i.head.unwrap.text = overloads
  intro hspec
  cases overloads with
  | none =>
    refine Inst.typedFrom_resolve _ _ (List.length_map _) ?_ (fun s hs => ?_) (fun _ => rfl)
    · rw [List.flatMap_map, List.map_flatMap, List.map_flatMap]
      refine List.flatMap_congr fun a ha => ?_
      simp only [Arg.tokens, List.map_append, List.map_cons, List.map_nil,
        spelling_typeArg .string (hargs a ha)]
    · cases hs
  | some signatures =>
    dsimp only
    cases hselect : Signature.select? signatures i.args.length with
    | none => exact Inst.typedFrom_resolve_of_select_none hselect
    | some s =>
      obtain ⟨hmem, hlength⟩ := Signature.of_select? hselect
      have hkinds := (hspec rfl).2 s hmem
      obtain ⟨hlen, hspelling, hall⟩ := typeArgs_spec hlength hkinds hargs
      refine Inst.typedFrom_resolve_of_select_some (s := s) ?_ _ _ hlen hspelling ?_
      · exact hselect
      · simp only [Inst.typesMatch, hlen, hlength, beq_self_eq_true, Bool.true_and]
        exact hall.symm

theorem finish_eq (i : Inst) : lineRules.finish i = typeInst { i with
    head := (spliceArgs i.head i.args).1, args := (spliceArgs i.head i.args).2 } := by
  unfold lineRules
  dsimp only

section Finish

variable {i : Inst} (hhead : StandsForWord i.head) (hargs : ∀ a ∈ i.args, StandsForWord a.token)
  (hraw : ∀ t ∈ i.tokens, t.kind ≠ .spliced)

include hhead hargs hraw

theorem finish_typedFrom : ∃ j : Inst, SameSpelling j.tokens i.tokens ∧ StandsForWord j.head ∧
    (lineRules.finish i).TypedFrom { j with head := j.head.retype (.mnemonic .invalid) }
      (mnemonics.lookup? j.head.unwrap.text) := by
  have htokens : ∀ t ∈ i.args.flatMap Arg.tokens, t.kind ≠ .spliced := by
    intro t ht
    refine hraw t ?_
    rw [Inst.tokens]
    exact List.mem_append_left _ (List.mem_append_right _ ht)
  obtain ⟨hspelling, hhead', hargs'⟩ := spliceArgs_spec hhead hargs htokens
  rw [finish_eq]
  refine ⟨_, ?_, hhead', typeInst_typedFrom hargs'⟩
  have hwhole := (SameSpelling.refl i.before).append (hspelling.append (.refl i.after))
  simpa [Inst.tokens] using hwhole

theorem finish_sameSpelling : SameSpelling (lineRules.finish i).tokens i.tokens := by
  obtain ⟨j, hj, hword, htyped⟩ := finish_typedFrom hhead hargs hraw
  have hretype :
      SameSpelling { j with head := j.head.retype (.mnemonic .invalid) }.tokens j.tokens :=
    Inst.sameSpelling rfl (Token.spelling_retype (by simp [Payload.kind]) hword.stands) rfl rfl
  exact htyped.sameSpelling.trans (hretype.trans hj)

theorem finish_resolvedBy : (lineRules.finish i).ResolvedBy
    (mnemonics.lookup? (lineRules.finish i).head.unwrap.text) := by
  obtain ⟨j, -, -, htyped⟩ := finish_typedFrom hhead hargs hraw
  have htext : (lineRules.finish i).head.unwrap.text = j.head.unwrap.text := by
    rw [htyped.unwrap_text, Token.unwrap_retype]
    rfl
  have hpayload :
      (j.head.retype (.mnemonic .invalid)).unwrap.payload? = some (.mnemonic .invalid) := by
    rw [Token.unwrap_retype]
    rfl
  rw [htext]
  refine htyped.resolvedBy hpayload (fun _ => rfl) fun hempty => ?_
  exact (lookup?_spec hempty).1 rfl

end Finish

theorem standsForWord_of_raw {src : Bytes} {i : Inst} (hraw : lineRules.Raw (.inst i))
    (hmem : ∀ t ∈ i.tokens, t ∈ lex src ∨ t = Token.endOfInput) :
    StandsForWord i.head ∧ (∀ a ∈ i.args, StandsForWord a.token) ∧
      ∀ t ∈ i.tokens, t.kind ≠ .spliced := by
  have hword : ∀ t ∈ i.tokens, isWord t → StandsForWord t := by
    intro t ht h
    obtain hlex | rfl := hmem t ht
    · exact standsForWord_of_mem_lex hlex h
    · cases h
  refine ⟨hword _ (by simp [Inst.tokens]) hraw.1, fun a ha => hword _ ?_ (hraw.2 a ha), ?_⟩
  · simp only [Inst.tokens, List.mem_append, List.mem_flatMap]
    exact .inl (.inr ⟨a, ha, by simp [Arg.tokens]⟩)
  · intro t ht
    obtain hlex | rfl := hmem t ht
    · exact (isRaw_of_mem_lex hlex).kind_ne_spliced
    · decide

/-- **Every program is read**, and its statements stand for its tokens. -/
theorem statements_reading (src : Bytes) :
    ∃ ss, statements src = .ok ss ∧ Reading (lex src) mnemonics.lookup? (ss.map (·.2)) := by
  have htokens := tokensOf_locate .codePoint {} (lex src)
  have hreads := lineRules_reads_lex src
  rw [← htokens] at hreads ⊢
  refine LineRules.reading hreads ?_ ?_
  · intro i hraw hmem
    rw [htokens] at hmem
    obtain ⟨hhead, hargs, hspliced⟩ := standsForWord_of_raw hraw hmem
    exact finish_sameSpelling hhead hargs hspliced
  · intro i hraw hmem _
    rw [htokens] at hmem
    obtain ⟨hhead, hargs, hspliced⟩ := standsForWord_of_raw hraw hmem
    exact finish_resolvedBy hhead hargs hspliced

end WhitespaceAsm.Burghard

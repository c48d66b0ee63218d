import WhitespaceAsm.Proofs.Palaiologos.Commas
import WhitespaceAsm.Proofs.Program

/-!
# The shape of Palaiologos trees

Separators go to the instruction that follows them, or to an empty line at the end of the program,
and each instruction takes the token that ends it.

* `leadKinds`, `closings`, `Ends`, **`Shape`**: which tokens stand where in an instruction;
  `Shape.map_snd_placedCommas`: all of its commas have places;
* `readInstEnd_kinds`, `readDefinition_shape`, `readCall_shape`: one instruction;
  **`readStatement_shape`**: one statement; `readAll_shape`: all of them;
* **`parse_shape`**: the tree of every program.
-/

namespace WhitespaceAsm.Palaiologos

/-! ## Shapes -/

/-- The kinds of tokens that can stand before the head of an instruction. -/
def leadKinds : List TokenKind := [.space, .lineTerm, .instSep, .lineComment, .argSep]

/-- What can end an instruction for good. -/
def closings : List (List TokenKind) := [[.lineTerm], [.instSep], [.endOfInput]]

/-- **Separators, a comment or none, and one of some closings.** -/
def Ends (separators : List TokenKind) (closes : List (List TokenKind)) (ts : List Token) : Prop :=
  ∃ spaces comment close, ts.map Token.kind = spaces ++ comment ++ close ∧
    (∀ k ∈ spaces, k ∈ separators) ∧ comment ∈ [[], [.lineComment]] ∧ close ∈ closes

/-- The token is the head of an instruction or an argument. -/
def IsPart (t : Token) : Prop := t.kind ∉ leadKinds ∧ t.kind ≠ .endOfInput

/-- **The shape of an instruction.** A definition has no arguments and need not be ended. -/
structure Shape (i : Inst) : Prop where
  before : ∀ t ∈ i.before, t.kind ∈ leadKinds
  head : IsPart i.head
  definition : i.head.kind = .label → i.args = [] ∧ Ends [.space] ([] :: closings) i.after
  call : i.head.kind ≠ .label →
    (∀ a ∈ i.args, (∀ t ∈ a.sep, t.kind ∈ [.space, .argSep]) ∧ IsPart a.token) ∧
      Ends [.space, .argSep] closings i.after

theorem IsPart.comma? {t : Token} (h : IsPart t) : comma? t = none :=
  comma?_eq_none fun hkind => h.1 (by rw [hkind]; decide)

theorem commas_arg {a : Arg} (h : IsPart a.token) : commas a.tokens = commas a.sep := by
  have htoken : commas [a.token] = [] := by simp [commas, h.comma?]
  rw [Arg.tokens, commas_append, htoken, List.append_nil]

theorem map_snd_argCommas {args : List Arg} (h : ∀ a ∈ args, IsPart a.token) :
    (argCommas args).map Prod.snd = commas (args.flatMap Arg.tokens) := by
  have hcommas : commas (args.flatMap Arg.tokens) = args.flatMap (commas ·.sep) := by
    rw [commas, List.filterMap_flatMap]
    exact List.flatMap_congr fun a ha => commas_arg (h a ha)
  rw [hcommas]
  cases args with
  | nil => rfl
  | cons first others =>
    simp only [argCommas, List.map_append, List.map_flatMap, map_snd_strayCommas,
      map_snd_sepCommas, List.flatMap_cons]

theorem Shape.args {i : Inst} (h : Shape i) : ∀ a ∈ i.args, IsPart a.token := by
  by_cases hlabel : i.head.kind = .label
  · simp [(h.definition hlabel).1]
  · exact fun a ha => ((h.call hlabel).1 a ha).2

theorem Shape.map_snd_placedCommas {i : Inst} (h : Shape i) :
    (placedCommas (.inst i)).map Prod.snd = commas i.tokens := by
  have hhead : commas [i.head] = [] := by simp [commas, h.head.comma?]
  rw [placedCommas, Inst.tokens, List.map_append, List.map_append, map_snd_strayCommas,
    map_snd_strayCommas, map_snd_argCommas h.args, commas_append, commas_append, commas_append,
    hhead, List.append_nil]

/-! ## Finishing an instruction -/

theorem Ends.congr {separators : List TokenKind} {closes : List (List TokenKind)}
    {ts us : List Token} (h : Ends separators closes ts)
    (hkinds : us.map Token.kind = ts.map Token.kind) : Ends separators closes us := by
  rw [Ends, hkinds]
  exact h

theorem forall_mem_of_map_kind {ts us : List Token} {kinds : List TokenKind}
    (hkinds : us.map Token.kind = ts.map Token.kind) (h : ∀ t ∈ ts, t.kind ∈ kinds) :
    ∀ t ∈ us, t.kind ∈ kinds := by
  intro t ht
  have hmem : t.kind ∈ ts.map Token.kind := by
    rw [← hkinds]
    exact List.mem_map_of_mem ht
  obtain ⟨u, hu, hkind⟩ := List.mem_map.1 hmem
  rw [← hkind]
  exact h u hu

theorem Shape.markCommas {i : Inst} (h : Shape i) (hlabel : i.head.kind ≠ .label) :
    Shape (markCommas i) where
  before := h.before
  head := h.head
  definition hhead := absurd hhead hlabel
  call _ := by
    obtain ⟨hargs, hends⟩ := h.call hlabel
    refine ⟨?_, hends.congr (map_markStray kind_markComma i.after)⟩
    rw [Palaiologos.markCommas]
    cases hi : i.args with
    | nil => simp
    | cons first others =>
      rw [hi] at hargs
      obtain ⟨⟨hsep, hpart⟩, hothers⟩ := List.forall_mem_cons.1 hargs
      refine List.forall_mem_cons.2 ⟨⟨?_, hpart⟩, fun a ha => ?_⟩
      · exact forall_mem_of_map_kind (map_markStray kind_markComma first.sep) hsep
      · obtain ⟨b, hb, rfl⟩ := List.mem_map.1 ha
        obtain ⟨hsep, hpart⟩ := hothers b hb
        exact ⟨forall_mem_of_map_kind (map_markRepeated kind_markComma false b.sep) hsep, hpart⟩

theorem Shape.resolveInst {i : Inst} (h : Shape i) : Shape (resolveInst i) := by
  obtain ⟨hbefore, hhead, hargs, hafter⟩ := resolveInst_frame i
  refine ⟨?_, ?_, ?_, ?_⟩
  · rw [hbefore]
    exact h.before
  · rw [IsPart, hhead]
    exact h.head
  · rw [hhead, hargs, hafter]
    exact h.definition
  · rw [hhead, hargs, hafter]
    exact h.call

/-! ## Tokens of a program -/

/-- **Tokens as they have been read.** The line ends behind a comment. -/
structure RawTokens (ts : List Token) : Prop where
  unmarked : Unmarked ts
  kind_ne_endOfInput : ∀ t ∈ ts, t.kind ≠ .endOfInput
  chain : ts.IsChain fun t u => t.kind = .lineComment → u.kind = .lineTerm

theorem RawTokens.of_suffix {ts us : List Token} (h : RawTokens ts) (hus : us <:+ ts) :
    RawTokens us where
  unmarked := h.unmarked.mono hus.subset
  kind_ne_endOfInput t ht := h.kind_ne_endOfInput t (hus.subset ht)
  chain := h.chain.suffix hus

theorem next_commas {motive : Token → Prop} (b : UInt8) (rest : Bytes)
    (comment : motive (Token.lineComment 1 (b :: rest)))
    (comma : motive (.plain [b] (.argSep ∅)))
    (other : ∀ text p, p.kind ∉ [.lineComment, .argSep] → motive (.plain text p)) :
    motive (next b rest) := by
  refine next_classes b rest ?_ ?_ ?_ ?_ ?_ ?_ ?_ comment ?_ ?_ ?_
  · exact fun _ _ => other _ _ (by simp [Payload.kind])
  · exact fun _ => other _ _ (by simp [Payload.kind])
  · exact fun _ _ _ => other _ _ (by simp [Payload.kind])
  · exact fun _ => other _ _ (by simp [Payload.kind])
  · exact fun _ => other _ _ (by simp [Payload.kind])
  · exact fun _ => other _ _ (by simp [Payload.kind])
  · exact fun _ => other _ _ (by simp [Payload.kind])
  · intro p hp _
    obtain rfl | rfl | rfl : p = .argSep ∅ ∨ p = .instSep .slash ∨ p = .lineTerm .lf := by
      simpa using hp
    · exact comma
    · exact other _ _ (by simp [Payload.kind])
    · exact other _ _ (by simp [Payload.kind])
  · exact fun _ => other _ _ (by simp [Payload.kind])
  · exact other _ _ (by simp [Payload.kind])

theorem next_unmarked (b : UInt8) (rest : Bytes) :
    ∀ errors, comma? (next b rest) = some errors → errors = ∅ := by
  refine next_commas (motive := fun t => ∀ errors, comma? t = some errors → errors = ∅) b rest
    nofun ?_ ?_
  · intro errors herrors
    exact (Option.some.inj herrors).symm
  · intro text p hp errors herrors
    obtain ⟨text', heq⟩ := comma?_eq_some.1 herrors
    cases heq
    exact absurd (by simp [Payload.kind]) hp

theorem eq_lf_of_next_lineComment {b c : UInt8} {rest more : Bytes}
    (e : b :: rest = (next b rest).text ++ c :: more) (h : (next b rest).kind = .lineComment) :
    c = Ascii.lf := by
  revert e h
  refine next_commas (motive := fun t => b :: rest = t.text ++ c :: more →
    t.kind = .lineComment → c = Ascii.lf) b rest ?_ (fun _ => nofun) ?_
  · exact fun e _ => LineComment.lf_of_text_read e
  · intro text p hp _ hkind
    change p.kind = .lineComment at hkind
    simp [hkind] at hp

theorem rawTokens_lex (src : Bytes) : RawTokens (lex src) where
  unmarked := by
    intro errors herrors
    obtain ⟨t, ht, hcomma⟩ := List.mem_filterMap.1 herrors
    exact forall_mem_tokenize next_readsStart
      (P := fun t => ∀ errors, comma? t = some errors → errors = ∅) next_unmarked src t ht _ hcomma
  kind_ne_endOfInput t ht :=
    (forall_mem_tokenize next_readsStart next_isRaw src t ht).kind_ne_endOfInput
  chain := by
    refine isChain_tokenize next_readsStart (fun b rest c more e h => ?_) src
    rw [eq_lf_of_next_lineComment e h]
    rfl

/-! ## Reading an instruction -/

theorem isPart_of_not_leads {t : Token} (h : leads t = false) (hend : t.kind ≠ .endOfInput) :
    IsPart t := by
  refine ⟨?_, hend⟩
  revert h
  unfold leads
  cases t.kind <;> decide

theorem isPart_of_not_separates {t : Token} (hsep : separates t = false)
    (hend : endsInst t = false) : IsPart t := by
  revert hsep hend
  unfold separates endsInst IsPart
  cases t.kind <;> decide

theorem kind_of_leads {t : Token} (h : leads t) : t.kind ∈ leadKinds := by
  revert h
  unfold leads
  cases t.kind <;> decide

theorem kind_of_separates {t : Token} (h : separates t) : t.kind ∈ [.space, .argSep] := by
  revert h
  unfold separates
  cases t.kind <;> decide

theorem endsInst_eq_false {t : Token} (hcomment : t.kind ≠ .lineComment)
    (hterminates : ¬ terminates t) (hend : t.kind ≠ .endOfInput) : endsInst t = false := by
  revert hcomment hterminates hend
  unfold terminates endsInst
  cases t.kind <;> decide

/-- **What ends an instruction**: a comment or none, and then a closing token unless the
instruction goes on. -/
theorem readInstEnd_kinds {ts : List Located} (h : RawTokens (tokensOf ts)) :
    ∃ comment close, (readInstEnd ts).1.map Token.kind = comment ++ close ∧
      comment ∈ [[], [.lineComment]] ∧
      (close ∈ closings ∨ close = [] ∧ ∃ t ∈ ts.head?, endsInst t.token = false) := by
  cases ts with
  | nil => exact ⟨[], [.endOfInput], rfl, by simp, .inl (by simp [closings])⟩
  | cons t ts =>
    by_cases hcomment : t.token.kind = .lineComment
    · have htake : takeToken (·.kind == .lineComment) (t :: ts) = ([t.token], ts) := by
        rw [takeToken, if_pos (beq_iff_eq.2 hcomment)]
      rw [readInstEnd, htake]
      cases ts with
      | nil =>
        refine ⟨[.lineComment], [.endOfInput], ?_, by simp, .inl (by simp [closings])⟩
        rw [← hcomment]
        rfl
      | cons u ts =>
        have hline : u.token.kind = .lineTerm := (List.isChain_cons_cons.1 h.chain).1 hcomment
        have hterminates : terminates u.token := by simp [terminates, hline]
        refine ⟨[.lineComment], [.lineTerm], ?_, by simp, .inl (by simp [closings])⟩
        simp [hterminates, hcomment, hline]
    · have htake : takeToken (·.kind == .lineComment) (t :: ts) = ([], t :: ts) := by
        rw [takeToken, if_neg (by simpa using hcomment)]
      rw [readInstEnd, htake]
      by_cases hterminates : terminates t.token
      · refine ⟨[], [t.token.kind], by simp [hterminates], by simp, .inl ?_⟩
        revert hterminates
        unfold terminates
        cases t.token.kind <;> decide
      · refine ⟨[], [], by simp [hterminates], by simp, .inr ⟨rfl, t, rfl, ?_⟩⟩
        exact endsInst_eq_false hcomment hterminates
          (h.kind_ne_endOfInput t.token List.mem_cons_self)

variable {ts : List Located}

theorem ends_readInstEnd (h : RawTokens (tokensOf ts)) {separators : List TokenKind}
    {spaces : List Token} (hspaces : ∀ t ∈ spaces, t.kind ∈ separators) :
    Ends separators ([] :: closings) (spaces ++ (readInstEnd ts).1) ∧
      ((∀ t ∈ ts.head?, endsInst t.token) →
        Ends separators closings (spaces ++ (readInstEnd ts).1)) := by
  obtain ⟨comment, close, hkinds, hcomment, hclose⟩ := readInstEnd_kinds h
  have hmap : (spaces ++ (readInstEnd ts).1).map Token.kind
      = spaces.map Token.kind ++ comment ++ close := by
    rw [List.map_append, hkinds, List.append_assoc]
  have hseparators : ∀ k ∈ spaces.map Token.kind, k ∈ separators := by simpa using hspaces
  refine ⟨⟨_, comment, close, hmap, hseparators, hcomment, ?_⟩, fun hhead =>
    ⟨_, comment, close, hmap, hseparators, hcomment, ?_⟩⟩
  · rcases hclose with hclose | ⟨rfl, -⟩
    · exact List.mem_cons_of_mem _ hclose
    · exact List.mem_cons_self
  · rcases hclose with hclose | ⟨-, t, ht, hgoes⟩
    · exact hclose
    · rw [hhead t ht] at hgoes
      cases hgoes

theorem Ends.commas_eq_nil {us : List Token} (h : Ends [.space] ([] :: closings) us) :
    commas us = [] := by
  obtain ⟨spaces, comment, close, hkinds, hspaces, hcomment, hclose⟩ := h
  refine Palaiologos.commas_eq_nil fun t ht hcomma => ?_
  have hmem : TokenKind.argSep ∈ spaces ++ comment ++ close := by
    rw [← hkinds, ← hcomma]
    exact List.mem_map_of_mem ht
  have hplain : ∀ ks ∈ [[], [TokenKind.lineComment]] ++ [] :: closings, .argSep ∉ ks := by decide
  rw [List.mem_append, List.mem_append] at hmem
  rcases hmem with (hmem | hmem) | hmem
  · cases List.mem_singleton.1 (hspaces _ hmem)
  · exact hplain comment (List.mem_append_left _ hcomment) hmem
  · exact hplain close (List.mem_append_right _ hclose) hmem

theorem commas_readInstEnd (h : RawTokens (tokensOf ts)) : commas (readInstEnd ts).1 = [] := by
  have hspaces : ∀ t ∈ ([] : List Token), t.kind ∈ [TokenKind.space] := by simp
  exact Ends.commas_eq_nil (ends_readInstEnd h hspaces).1

/-- **A definition has its shape**, and no comma behind its head. -/
theorem readDefinition_shape {before : List Token} {head : Token} (h : RawTokens (tokensOf ts))
    (hbefore : ∀ t ∈ before, t.kind ∈ leadKinds) (hmarked : Marked (strayCommas before))
    (hhead : IsPart head) (hlabel : head.kind = .label) :
    let i := (readDefinition before head ts).1
    Shape i ∧ Marked (placedCommas (.inst i)) := by
  let spaces := ts.takeWhile (·.token.kind == .space)
  have hspaces : ∀ t ∈ tokensOf spaces, t.kind ∈ [TokenKind.space] := fun t ht =>
    List.mem_singleton.2 (beq_iff_eq.1 (forall_mem_takeWhile (·.kind == .space) ts t ht))
  have hrest : RawTokens (tokensOf (ts.drop spaces.length)) :=
    h.of_suffix ((List.drop_suffix _ _).map _)
  have hends := (ends_readInstEnd hrest hspaces).1
  refine ⟨⟨hbefore, hhead, fun _ => ⟨rfl, hends⟩, fun hne => absurd hlabel hne⟩, ?_⟩
  have hafter : Marked (strayCommas (readDefinition before head ts).1.after) := by
    change Marked (strayCommas (tokensOf spaces ++ (readInstEnd (ts.drop spaces.length)).1))
    rw [strayCommas, hends.commas_eq_nil]
    simp [Marked]
  have hargs : Marked (argCommas (readDefinition before head ts).1.args) := by
    simp [readDefinition, argCommas, Marked]
  exact List.forall_mem_append.2 ⟨List.forall_mem_append.2 ⟨hmarked, hargs⟩, hafter⟩

/-- **A call has its shape**, and the flags of its commas. -/
theorem readCall_shape {before : List Token} {head : Token} (h : RawTokens (tokensOf ts))
    (hbefore : ∀ t ∈ before, t.kind ∈ leadKinds) (hmarked : Marked (strayCommas before))
    (hhead : IsPart head) (hlabel : head.kind ≠ .label) :
    let i := (readCall before head ts).1
    Shape i ∧ Marked (placedCommas (.inst i)) := by
  let read := readArgs separates (!endsInst ·) [] ts
  obtain ⟨hread, hrest, hparts, hstop⟩ := readArgs_spec separates (!endsInst ·) [] ts
  have hnil : ∀ t ∈ ([] : List Token), separates t := by simp
  obtain ⟨hargs, hafter⟩ := readArgs_separators separates (!endsInst ·) hnil ts
  have hraw : RawTokens (tokensOf read.rest) := h.of_suffix (hrest.map _)
  let i : Inst :=
    { before, head, args := read.args, after := read.after ++ (readInstEnd read.rest).1 }
  have hshape : Shape i := by
    refine ⟨hbefore, hhead, fun heq => absurd heq hlabel, fun _ => ⟨fun a ha => ?_, ?_⟩⟩
    · refine ⟨fun t ht => kind_of_separates ((hargs a ha).1 t ht), ?_⟩
      exact isPart_of_not_separates (hargs a ha).2 (by simpa using hparts a ha)
    · refine (ends_readInstEnd hraw fun t ht => kind_of_separates (hafter t ht)).2 fun t ht => ?_
      simpa using (hstop t ht).2
  have hunmarked : Unmarked (read.args.flatMap Arg.tokens ++ read.after) := by
    refine h.unmarked.mono fun t ht => ?_
    rw [List.nil_append] at hread
    rw [← hread]
    exact List.mem_append_left _ ht
  have hcommas : Marked (placedCommas (.inst (markCommas i))) := by
    refine marked_markCommas hmarked (fun a ha => hunmarked.mono fun t ht => ?_) ?_
    · refine List.mem_append_left _ (List.mem_flatMap.2 ⟨a, ha, ?_⟩)
      exact List.mem_append_left _ ht
    · have hend : commas i.after = commas read.after := by
        rw [commas_append, commas_readInstEnd hraw, List.append_nil]
      rw [Unmarked, hend]
      exact hunmarked.mono fun t ht => List.mem_append_right _ ht
  intro j
  rw [show j = resolveInst (markCommas i) from rfl, placedCommas_resolveInst]
  exact ⟨(hshape.markCommas hlabel).resolveInst, hcommas⟩

/-! ## Reading statements -/

/-- **What is known about each statement.** -/
def Shaped (s : Statement) : Prop :=
  Marked (placedCommas s) ∧
    match s with
    | .inst i => Shape i
    | .emptyLine ts => Ends leadKinds [[.endOfInput]] ts

theorem rawTokens_rest {t : Located} (h : RawTokens (tokensOf (t :: ts))) :
    RawTokens (tokensOf (readStatement t ts).rest) := by
  obtain ⟨start, raw, rest, tail, hread, -, -, htokens, hend⟩ := reader_keeps t ts trivial
  have hrest : (readStatement t ts).rest = rest :=
    congrArg ParsedStatement.rest (Except.ok.inj hread)
  rw [hrest]
  rcases hend with rfl | ⟨rfl, rfl⟩
  · rw [List.append_nil] at htokens
    exact h.of_suffix ⟨_, htokens⟩
  · exact h.of_suffix (List.nil_suffix)

/-- **A statement has its shape.** Only the last one can be an empty line. -/
theorem readStatement_shape {t : Located} (h : RawTokens (tokensOf (t :: ts))) :
    Shaped (readStatement t ts).statement ∧
      ((∃ i, (readStatement t ts).statement = .inst i) ∨ (readStatement t ts).rest = []) := by
  obtain ⟨hsplit, hstop⟩ := takeWhile_spec leads (t :: ts)
  let lead := (t :: ts).takeWhile (leads ·.token)
  have hlead : ∀ u ∈ tokensOf lead, u.kind ∈ leadKinds := fun u hu =>
    kind_of_leads (forall_mem_takeWhile leads (t :: ts) u hu)
  have hbefore : ∀ u ∈ markStray (tokensOf lead), u.kind ∈ leadKinds :=
    forall_mem_of_map_kind (map_markStray kind_markComma _) hlead
  have hprefix : tokensOf lead ⊆ tokensOf (t :: ts) :=
    ((List.takeWhile_prefix _).map _).subset
  have hmarked : Marked (strayCommas (markStray (tokensOf lead))) :=
    marked_markStray (h.unmarked.mono hprefix)
  rw [readStatement]
  dsimp only
  cases hdrop : (t :: ts).drop lead.length with
  | nil =>
    refine ⟨⟨?_, ?_⟩, .inr rfl⟩
    · change Marked (strayCommas (markStray (tokensOf lead) ++ [Token.endOfInput]))
      have hend : commas [Token.endOfInput] = [] := rfl
      rw [strayCommas, commas_append, hend, List.append_nil]
      exact hmarked
    · refine ⟨(markStray (tokensOf lead)).map Token.kind, [], [.endOfInput], ?_, ?_, ?_, ?_⟩
      · rw [List.append_nil]
        exact List.map_append
      · simpa using hbefore
      · simp
      · simp
  | cons head more =>
    rw [hdrop] at hstop
    have hsuffix : tokensOf (head :: more) <:+ tokensOf (t :: ts) := by
      rw [← hdrop]
      exact (List.drop_suffix _ _).map _
    have hraw := h.of_suffix hsuffix
    have hmore : RawTokens (tokensOf more) := hraw.of_suffix (List.suffix_cons _ _)
    have hhead : IsPart head.token := isPart_of_not_leads (hstop head rfl)
      (hraw.kind_ne_endOfInput _ List.mem_cons_self)
    refine ⟨?_, .inl ⟨_, rfl⟩⟩
    change Shaped (.inst (readInst (markStray (tokensOf lead)) head.token more).1)
    unfold readInst
    split
    · next hlabel => exact (readDefinition_shape hmore hbefore hmarked hhead hlabel).symm
    · next hlabel => exact (readCall_shape hmore hbefore hmarked hhead hlabel).symm

/-- **The statements of a program**: instructions, and at most one empty line behind them. -/
theorem readAll_shape (h : RawTokens (tokensOf ts)) :
    ∃ (ss : List (Pos × Statement)) (insts : List Inst) (last : Option (List Token)),
      reader.readAll ts = .ok ss ∧
      ss.map (·.2) = insts.map .inst ++ last.toList.map .emptyLine ∧
      ∀ s ∈ ss.map (·.2), Shaped s := by
  induction hn : ts.length using Nat.strong_induction_on generalizing ts with
  | _ n ih =>
    cases ts with
    | nil => exact ⟨[], [], none, by rw [StatementReader.readAll], rfl, by simp⟩
    | cons t ts =>
      have hread : reader.read t ts = .ok (readStatement t ts) := rfl
      obtain ⟨hshaped, hlast⟩ := readStatement_shape h
      have hlt : (readStatement t ts).rest.length < n := by
        rw [← hn]
        exact Nat.lt_succ_of_le (rest_readStatement_length_le t ts)
      rw [StatementReader.readAll_cons hread]
      cases hs : (readStatement t ts).statement with
      | inst i =>
        obtain ⟨ss, insts, last, hall, hss, hmore⟩ := ih _ hlt (rawTokens_rest h) rfl
        refine ⟨_, i :: insts, last, by rw [hall]; rfl, ?_, ?_⟩
        · rw [List.map_cons, hss]
          rfl
        · exact List.forall_mem_cons.2 ⟨hs ▸ hshaped, hmore⟩
      | emptyLine line =>
        have hrest : (readStatement t ts).rest = [] := by
          rcases hlast with ⟨i, hi⟩ | hrest
          · cases hi.symm.trans hs
          · exact hrest
        refine ⟨[((readStatement t ts).start, .emptyLine line)], [], some line, ?_, rfl, ?_⟩
        · rw [hrest, StatementReader.readAll]
          rfl
        · exact List.forall_mem_singleton.2 (hs ▸ hshaped)

theorem Shaped.map_snd_placedCommas {s : Statement} (h : Shaped s) :
    (placedCommas s).map Prod.snd = commas s.tokens := by
  cases s with
  | inst i => exact Shape.map_snd_placedCommas h.2
  | emptyLine ts => exact map_snd_strayCommas ts

/-- **Every tree is a list of instructions** of a fixed shape, with at most one empty line behind
them. -/
theorem parse_shape (src : Bytes) :
    ∃ (insts : List Inst) (last : Option (List Token)),
      let ss := insts.map Statement.inst ++ last.toList.map .emptyLine
      Dialect.palaiologos.parse src
        = .ok (.dialect .palaiologos (some (.block (ss.map .statement)))) ∧
      (∀ i ∈ insts, Shape i) ∧
      (∀ ts ∈ last, Ends leadKinds [[.endOfInput]] ts) ∧
      ∀ s ∈ ss, (placedCommas s).map Prod.snd = commas s.tokens ∧
        ∀ c ∈ placedCommas s,
          (c.2 = ∅ ↔ c.1 = .between) ∧ (c.2 = {.multiple} ↔ c.1 = .repeated) ∧
            (c.2 = {.notBetweenArguments} ↔ c.1 = .stray) := by
  have hraw := rawTokens_lex src
  rw [← tokensOf_locate .byte {} (lex src)] at hraw
  obtain ⟨located, insts, last, hall, hss, hshaped⟩ := readAll_shape hraw
  refine ⟨insts, last, ?_, ?_, ?_, ?_⟩
  · have hstatements : Dialect.palaiologos.statements src = .ok located := hall
    rw [Dialect.parse, hstatements, ← hss]
    rfl
  · intro i hi
    refine (hshaped (.inst i) ?_).2
    rw [hss]
    exact List.mem_append_left _ (List.mem_map_of_mem hi)
  · intro ts hts
    refine (hshaped (.emptyLine ts) ?_).2
    rw [hss]
    exact List.mem_append_right _ (List.mem_map_of_mem (Option.mem_toList.2 hts))
  · intro s hs
    rw [← hss] at hs
    refine ⟨(hshaped s hs).map_snd_placedCommas, fun c hc => ?_⟩
    rw [(hshaped s hs).1 c hc]
    exact ⟨CommaPlace.errors_inj (q := .between), CommaPlace.errors_inj (q := .repeated),
      CommaPlace.errors_inj (q := .stray)⟩

end WhitespaceAsm.Palaiologos

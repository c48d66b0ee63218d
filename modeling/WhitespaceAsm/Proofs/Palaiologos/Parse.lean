import WhitespaceAsm.Palaiologos.Parse
import WhitespaceAsm.Proofs.Palaiologos.Lex
import WhitespaceAsm.Proofs.Tree.Reading

/-!
# The statements of Palaiologos programs

Reading finishes each statement at once. It is taken apart here into reading, which keeps the
tokens, and `finish`, which marks commas and resolves the head.

* `finish`: a statement after it has been read; **`reader_keeps`**: reading keeps the tokens;
* `finish_sameSpelling`, **`finishInst_resolvedBy`**: what finishing does;
* **`statements_reading`**: every program is read.
-/

namespace WhitespaceAsm.Palaiologos

/-- What becomes of an instruction whose tokens have been read. -/
def finishInst (i : Inst) : Inst :=
  let marked := { i with before := markStray i.before }
  if i.head.kind = .label then marked else resolveInst (markCommas marked)

/-- What becomes of a statement whose tokens have been read. -/
def finish : Statement → Statement
  | .inst i => .inst (finishInst i)
  | .emptyLine ts => .emptyLine (markStray ts)

/-! ## Reading -/

theorem readInstEnd_spec (ts : List Located) :
    ∃ close rest tail, readInstEnd ts = (close ++ tail, rest) ∧
      close ++ tokensOf rest = tokensOf ts ∧ EndsInput rest tail := by
  obtain ⟨htokens, -⟩ := takeToken_spec (·.kind == .lineComment) ts
  cases htake : takeToken (·.kind == .lineComment) ts with
  | mk comment rest =>
    rw [htake] at htokens
    rw [readInstEnd, htake]
    cases rest with
    | nil => exact ⟨comment, [], [Token.endOfInput], rfl, htokens, .inr ⟨rfl, rfl⟩⟩
    | cons t rest =>
      by_cases hend : terminates t.token
      · refine ⟨comment ++ [t.token], rest, [], ?_, ?_, .inl rfl⟩
        · simp only [hend, if_true, List.append_nil]
        · rw [← htokens, List.append_assoc]
          rfl
      · refine ⟨comment, t :: rest, [], ?_, htokens, .inl rfl⟩
        simp only [hend, List.append_nil]
        rfl

theorem readInst_spec (before : List Token) (head : Token) (ts : List Located) :
    ∃ i rest tail, readInst (markStray before) head ts = (finishInst i, rest) ∧
      i.tokens ++ tokensOf rest = before ++ head :: tokensOf ts ++ tail ∧ EndsInput rest tail := by
  unfold readInst
  by_cases hlabel : head.kind = .label
  · obtain ⟨hsplit, -⟩ := takeWhile_spec (·.kind == .space) ts
    let spaces := ts.takeWhile (·.token.kind == .space)
    obtain ⟨close, rest, tail, hclose, htokens, hend⟩ :=
      readInstEnd_spec (ts.drop spaces.length)
    refine ⟨{ before, head, after := tokensOf spaces ++ (close ++ tail) }, rest, tail, ?_, ?_, hend⟩
    · rw [if_pos hlabel, readDefinition]
      dsimp only
      rw [hclose, finishInst, if_pos hlabel]
      rfl
    · have hts : tokensOf ts = tokensOf spaces ++ (close ++ tokensOf rest) := by
        rw [htokens, ← tokensOf_append, hsplit]
      rw [hts, Inst.tokens]
      simp [hend.append_comm]
  · obtain ⟨hread, -, -, -⟩ := readArgs_spec separates (!endsInst ·) [] ts
    let read := readArgs separates (!endsInst ·) [] ts
    obtain ⟨close, rest, tail, hclose, htokens, hend⟩ := readInstEnd_spec read.rest
    refine ⟨{ before, head, args := read.args, after := read.after ++ (close ++ tail) }, rest, tail,
      ?_, ?_, hend⟩
    · rw [if_neg hlabel, readCall]
      dsimp only
      rw [hclose, finishInst, if_neg hlabel]
    · rw [List.nil_append] at hread
      rw [← hread, ← htokens, Inst.tokens]
      simp [read, hend.append_comm]

/-- **Reading keeps the tokens** of every program. -/
theorem reader_keeps : reader.Keeps (fun _ => True) (fun _ => True) finish := by
  intro t ts _
  obtain ⟨hsplit, -⟩ := takeWhile_spec leads (t :: ts)
  let lead := (t :: ts).takeWhile (leads ·.token)
  have hlead : tokensOf (t :: ts) = tokensOf lead ++ tokensOf ((t :: ts).drop lead.length) := by
    rw [← tokensOf_append, hsplit]
  have hread : reader.read t ts = .ok (readStatement t ts) := rfl
  rw [hread, readStatement]
  dsimp only
  cases hdrop : (t :: ts).drop lead.length with
  | nil =>
    refine ⟨t.start, .emptyLine (tokensOf lead ++ [Token.endOfInput]), [], [Token.endOfInput],
      ?_, trivial, trivial, ?_, .inr ⟨rfl, rfl⟩⟩
    · simp only [finish, markStray, List.map_append]
      rfl
    · rw [hlead, hdrop]
      simp [Statement.tokens]
  | cons head more =>
    obtain ⟨i, rest, tail, hi, htokens, hend⟩ := readInst_spec (tokensOf lead) head.token more
    refine ⟨head.start, .inst i, rest, tail, ?_, trivial, trivial, ?_, hend⟩
    · have hbefore : markStray (lead.map (·.token)) = markStray (tokensOf lead) := rfl
      rw [hbefore]
      dsimp only
      rw [hi]
      rfl
    · rw [hlead, hdrop]
      exact htokens

/-! ## Commas -/

theorem spelling_markComma (error : ArgSepError) (t : Token) :
    (markComma error t).spelling = t.spelling := by
  unfold markComma
  split
  · exact Token.spelling_plain _ (by simp [Payload.kind]) (by simp [Payload.kind])
  · rfl

section Marking

variable {α : Type} {f : Token → α} (h : ∀ error t, f (markComma error t) = f t)

include h

theorem map_markStray (ts : List Token) : (markStray ts).map f = ts.map f := by
  rw [markStray, List.map_map]
  exact List.map_congr_left fun t _ => h _ t

theorem map_markRepeated (seen : Bool) (ts : List Token) :
    (markRepeated seen ts).map f = ts.map f := by
  induction ts generalizing seen with
  | nil => rfl
  | cons t ts ih =>
    rw [markRepeated]
    split
    · cases seen with
      | false => rw [if_neg Bool.false_ne_true, List.map_cons, List.map_cons, ih]
      | true => rw [if_pos rfl, List.map_cons, List.map_cons, ih, h]
    · rw [List.map_cons, List.map_cons, ih]

end Marking

theorem markCommas_sameSpelling (i : Inst) : SameSpelling (markCommas i).tokens i.tokens := by
  refine Inst.sameSpelling rfl rfl ?_ (map_markStray spelling_markComma i.after)
  rw [markCommas]
  dsimp only
  cases i.args with
  | nil => rfl
  | cons first others =>
    simp only [List.flatMap_cons, List.map_append, Arg.tokens, map_markStray spelling_markComma,
      List.map_flatMap, List.flatMap_map, map_markRepeated spelling_markComma]

/-! ## Resolution -/

theorem get?_ne_nil (text : Bytes) : mnemonics.get? text ≠ some [] := by
  intro hempty
  rw [ByteTrie.get?_eq] at hempty
  exact (mnemonics_keyword hempty).2.2 rfl

theorem resolveInst_typedFrom {i : Inst} (h : i.head.kind = .mnemonic) :
    (resolveInst i).TypedFrom i (mnemonics.get? i.head.text) := by
  unfold resolveInst
  rw [if_pos h]
  dsimp only
  generalize mnemonics.get? i.head.text = overloads
  cases hselect : Signature.select? (overloads.getD []) i.args.length with
  | none => exact Inst.typedFrom_resolve_of_select_none hselect
  | some s =>
    obtain ⟨-, hargs, -, -⟩ := Inst.resolve_frame i overloads
    refine Inst.typedFrom_resolve_of_select_some (s := s) ?_ (i.resolve overloads).args _
      (by rw [hargs]) (by rw [hargs]) ?_
    · exact hselect
    · rfl

theorem resolveInst_sameSpelling (i : Inst) : SameSpelling (resolveInst i).tokens i.tokens := by
  by_cases h : i.head.kind = .mnemonic
  · exact (resolveInst_typedFrom h).sameSpelling
  · rw [resolveInst, if_neg h]
    exact .refl _

/-! ## Statements -/

theorem finish_sameSpelling (s : Statement) : SameSpelling (finish s).tokens s.tokens := by
  cases s with
  | emptyLine ts => exact SameSpelling.of_map (map_markStray spelling_markComma ts)
  | inst i =>
    have hbefore : SameSpelling { i with before := markStray i.before }.tokens i.tokens :=
      Inst.sameSpelling (map_markStray spelling_markComma i.before) rfl rfl rfl
    rw [finish, finishInst]
    split
    · exact hbefore
    · exact (resolveInst_sameSpelling _).trans ((markCommas_sameSpelling _).trans hbefore)

theorem finishInst_resolvedBy {i : Inst} {text : Bytes} {p : Payload}
    (hhead : i.head = .plain text p)
    (hp : ∀ opcode, p = .mnemonic opcode → mnemonics.get? text = none → opcode = .invalid)
    (h : (finishInst i).head.unwrap.kind = .mnemonic) :
    (finishInst i).ResolvedBy (mnemonics.get? (finishInst i).head.unwrap.text) := by
  by_cases hmnemonic : p.kind = .mnemonic
  · obtain ⟨opcode, hopcode⟩ := Token.payload?_of_kind_mnemonic (t := .plain text p) hmnemonic
    obtain rfl : p = .mnemonic opcode := Option.some.inj hopcode
    let marked := markCommas { i with before := markStray i.before }
    have hmarked : marked.head = .plain text (.mnemonic opcode) := hhead
    have hlabel : i.head.kind ≠ .label := by rw [hhead]; simp [Token.kind, Payload.kind]
    have hfinish : finishInst i = resolveInst marked := by
      rw [finishInst, if_neg hlabel]
    have htyped := resolveInst_typedFrom (i := marked) (by rw [hmarked]; rfl)
    rw [hfinish, htyped.unwrap_text, hmarked]
    rw [hmarked] at htyped
    exact htyped.resolvedBy (by rw [hmarked]; rfl) (hp opcode rfl) (get?_ne_nil text)
  · -- neither a label nor any other head becomes a mnemonic
    have hfinish : (finishInst i).head = .plain text p := by
      rw [finishInst]
      split
      · exact hhead
      · rw [resolveInst, if_neg]
        · exact hhead
        · rw [show (markCommas { i with before := markStray i.before }).head = _ from hhead]
          exact hmnemonic
    rw [hfinish] at h
    exact absurd h hmnemonic

/-- **Every program is read**, and its statements stand for its tokens. -/
theorem statements_reading (src : Bytes) :
    ∃ ss, statements src = .ok ss ∧ Reading (lex src) mnemonics.get? (ss.map (·.2)) := by
  have htokens := tokensOf_locate .byte {} (lex src)
  rw [← htokens]
  refine StatementReader.reading reader_keeps trivial (fun raw _ _ => finish_sameSpelling raw) ?_
  intro raw _ hmem i hi
  rw [htokens] at hmem
  cases raw with
  | emptyLine ts => cases hi
  | inst j =>
    cases hi
    have hhead : j.head ∈ (Statement.inst j).tokens := by simp [Statement.tokens, Inst.tokens]
    obtain hlex | hend := hmem j.head hhead
    · obtain ⟨text, p, heq, hp⟩ := plain_of_mem_lex hlex
      exact finishInst_resolvedBy heq hp
    · exact finishInst_resolvedBy hend fun _ heq => by cases heq

end WhitespaceAsm.Palaiologos

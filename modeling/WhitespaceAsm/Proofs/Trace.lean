import Mathlib.Algebra.GroupWithZero.Nat
import WhitespaceAsm.Proofs.Check.Positions
import WhitespaceAsm.Proofs.Palaiologos.Commas
import WhitespaceAsm.Proofs.Token.Describe
import WhitespaceAsm.Proofs.Tree.Placement

/-!
# A trace points at the source

A trace has a line for each statement, with the position of the statement. This is the position that
a lexer has behind the statements before and behind the tokens that lead the statement.

* `Palaiologos.lead`, **`Palaiologos.reader_places`**: a statement starts at the head of its
  instruction;
* `Dialect.lead`, **`Dialect.statements_placed`**: where statements start; `Dialect.offsetOf`,
  `Dialect.position_statement`: the position of one of them as that of an offset;
* **`Dialect.trace_positions`**: the lines of a trace.
-/

namespace WhitespaceAsm

/-! ## Lines -/

theorem lf_notMem_summary (s : Statement) : Ascii.lf ∉ s.summary := by
  cases s with
  | emptyLine ts => exact (by decide : Ascii.lf ∉ ascii "empty")
  | inst i =>
    have hflaws : ∀ arity types : Bool, Ascii.lf ∉ (if arity then ascii " (bad arity)"
        else if types then ascii " (bad types)" else []) := by decide
    have herror : ∀ e : Bool, Ascii.lf ∉ (if e then ascii " !" else []) := by decide
    simp only [Statement.summary, List.mem_append, not_or]
    exact ⟨⟨⟨⟨i.opcode.printable_name.lf_notMem, by decide⟩, (printable_decimal _).lf_notMem⟩,
      hflaws _ _⟩, herror _⟩

/-- **What is written for a statement is one line.** -/
theorem lf_notMem_traceLine (d : Dialect) (pos : Pos) (s : Statement) :
    Ascii.lf ∉ d.traceLine pos s := by
  have hname : Ascii.lf ∉ ascii d.name := by cases d <;> decide
  simp only [Dialect.traceLine, List.mem_append, not_or, and_assoc]
  exact ⟨by decide, hname, by decide, (printable_decimal _).lf_notMem, by decide,
    (printable_decimal _).lf_notMem, by decide, lf_notMem_summary s⟩

/-! ## Palaiologos -/

namespace Palaiologos

/-- The tokens that lead a statement are those before the head of its instruction. -/
def lead : Statement → List Token
  | .inst i => i.before
  | .emptyLine _ => []

theorem readInstEnd_isSuffix (ts : List Located) : (readInstEnd ts).2 <:+ ts := by
  obtain ⟨-, hcomment⟩ := takeToken_spec (·.kind == .lineComment) ts
  unfold readInstEnd
  split
  next comment rest heq =>
    rw [heq] at hcomment
    split
    · exact List.nil_suffix
    · next t more =>
      split
      · exact (List.suffix_cons t _).trans hcomment
      · exact hcomment

theorem readInst_isSuffix (before : List Token) (head : Token) (ts : List Located) :
    (readInst before head ts).2 <:+ ts := by
  obtain ⟨-, hargs, -⟩ := readArgs_spec separates (!endsInst ·) [] ts
  unfold readInst
  split
  · exact (readInstEnd_isSuffix _).trans (List.drop_suffix _ _)
  · exact (readInstEnd_isSuffix _).trans hargs

theorem before_readInst (before : List Token) (head : Token) (ts : List Located) :
    (readInst before head ts).1.before = before := by
  unfold readInst
  split
  · rfl
  · exact (resolveInst_frame _).1

/-- **A statement starts at the head of its instruction.** -/
theorem reader_places : reader.Places lead where
  rest_isSuffix {t ts p} h := by
    obtain rfl : readStatement t ts = p := Except.ok.inj h
    have hdrop := List.drop_suffix ((t :: ts).takeWhile (leads ·.token)).length (t :: ts)
    unfold readStatement
    dsimp only
    split
    · exact List.nil_suffix
    · next head more heq =>
      rw [heq] at hdrop
      exact (readInst_isSuffix _ _ _).trans ((List.suffix_cons head more).trans hdrop)
  start {t ts p} h := by
    obtain rfl : readStatement t ts = p := Except.ok.inj h
    obtain ⟨hsplit, -⟩ := takeWhile_spec leads (t :: ts)
    unfold readStatement
    dsimp only
    split
    · exact ⟨[], t, ts, rfl, rfl, rfl⟩
    · next head more heq =>
      rw [heq] at hsplit
      refine ⟨_, head, more, hsplit.symm, rfl, ?_⟩
      dsimp only [lead]
      rw [before_readInst]
      exact (SameSpelling.of_map (map_markStray spelling_markComma _)).texts_eq.symm

end Palaiologos

/-! ## Positions -/

theorem statementsLength_eq_sum (ss : List Statement) :
    statementsLength ss = (ss.map fun s => (Node.statement s).length).sum := by
  induction ss with
  | nil => rfl
  | cons s ss ih =>
    rw [← List.singleton_append, statementsLength_append, ih, List.singleton_append, List.map_cons,
      List.sum_cons, Node.length_eq, Node.statements]

namespace Dialect

/-- The tokens that lead a statement. What a trace says about it is where they end. -/
def lead : Dialect → Statement → List Token
  | palaiologos => Palaiologos.lead
  | burghard | voliva => fun _ => []

theorem lead_isPrefix (d : Dialect) (s : Statement) : d.lead s <+: s.tokens := by
  cases d with
  | burghard | voliva => exact List.nil_prefix
  | palaiologos =>
    cases s with
    | emptyLine ts => exact List.nil_prefix
    | inst i => exact ⟨[i.head] ++ i.args.flatMap Arg.tokens ++ i.after, by
        simp [lead, Palaiologos.lead, Statement.tokens, Inst.tokens]⟩

/-- **Where statements start**: behind the statements before them and the tokens that lead them. -/
theorem statements_placed (d : Dialect) (src : Bytes) :
    ∃ ss, d.statements src = .ok (placeStatements d.columns d.lead {} ss) := by
  cases d with
  | burghard =>
    refine LineRules.readAll_eq_placeStatements (Burghard.lineRules_reads_lex src) ?_ .codePoint
    intro i hraw hmem
    obtain ⟨hhead, hargs, hspliced⟩ := Burghard.standsForWord_of_raw hraw hmem
    exact Burghard.finish_sameSpelling hhead hargs hspliced
  | palaiologos =>
    exact Palaiologos.reader_places.readAll_eq Palaiologos.reader_keeps
      (fun raw _ _ => Palaiologos.finish_sameSpelling raw) trivial (List.Subset.refl _)
      (locatedFrom_locate .byte {} _)
  | voliva =>
    exact LineRules.readAll_eq_placeStatements (Voliva.lineRules_reads_lex src)
      (fun i _ _ => Voliva.typeInst_sameSpelling i) .byte

theorem parse_placed (d : Dialect) (src : Bytes) : ∃ tree, d.parse src = .ok tree ∧
    d.statements src = .ok (placeStatements d.columns d.lead {} tree.statements) := by
  obtain ⟨ss, hss⟩ := d.statements_placed src
  refine ⟨d.assemble ss, ?_, by rw [statements_assemble, hss]⟩
  have hsnd := map_snd_placeStatements d.columns d.lead {} ss
  rw [parse, hss]
  exact congrArg (Except.ok ∘ d.assemble) hsnd

/-- **The offset of a statement**: the lengths of the statements before it, and that of the tokens
that lead it. -/
def offsetOf (d : Dialect) (ss : List Statement) (k : Fin ss.length) : ℕ :=
  ((ss.take k).map fun s => (Node.statement s).length).sum + (texts (d.lead ss[k])).length

theorem exists_tokens_eq (d : Dialect) (ss : List Statement) (k : Fin ss.length) : ∃ after,
    ss.flatMap Statement.tokens
      = (ss.take k).flatMap Statement.tokens ++ d.lead ss[k] ++ after := by
  obtain ⟨own, hown⟩ := d.lead_isPrefix ss[k]
  refine ⟨own ++ (ss.drop (k + 1)).flatMap Statement.tokens, ?_⟩
  calc ss.flatMap Statement.tokens
      = (ss.take k ++ ss.drop k).flatMap Statement.tokens := by rw [List.take_append_drop]
    _ = (ss.take k).flatMap Statement.tokens
          ++ (ss[k].tokens ++ (ss.drop (k + 1)).flatMap Statement.tokens) := by
        rw [List.flatMap_append, List.drop_eq_getElem_cons k.isLt, List.flatMap_cons]
        rfl
    _ = _ := by rw [← hown, List.append_assoc, List.append_assoc]

/-- **The position of a statement** is that of its offset, and a lexer starts a token there. -/
theorem position_statement {d : Dialect} {src : Bytes} {tree : Node}
    (hparse : d.parse src = .ok tree) (k : Fin tree.statements.length) :
    let before := (tree.statements.take k).flatMap Statement.tokens ++ d.lead tree.statements[k]
    let pos := Pos.ofOffset d.columns src (d.offsetOf tree.statements k)
    Pos.advance d.columns {} (texts before) = pos ∧ ∃ n, (d.lexicon.lexer src).start n = pos := by
  intro before pos
  obtain ⟨after, hsplit⟩ := d.exists_tokens_eq tree.statements k
  have hsrc : texts before ++ texts after = src := by
    rw [← texts_append, ← hsplit]
    exact source_of_parse hparse
  have hlength : (texts before).length = d.offsetOf tree.statements k := by
    rw [texts_append, List.length_append, offsetOf, ← statementsLength_eq_sum]
    rfl
  have htake : src.take (d.offsetOf tree.statements k) = texts before := by
    rw [← hsrc, ← hlength, List.take_left]
  have hadvance : Pos.advance d.columns {} (texts before) = pos := by
    rw [← htake]
    refine Pos.advance_take ?_
    rw [← hsrc, ← hlength, List.length_append]
    exact Nat.le_add_right _ _
  obtain ⟨n, hn⟩ := exists_texts_take_lex hparse hsplit
  have hoffset : ((d.lexicon.lexer src).start n).offset = d.offsetOf tree.statements k := by
    rw [Lexicon.offset_start_lexer, ← hlength, ← hn]
    rfl
  exact ⟨hadvance, n, by rw [start_lexer_eq n, hoffset, htake, hadvance]⟩

/-- **The lines of a trace point at the source.** There is a line for each statement of the tree, in
source order, and nothing else changes when a program is traced. -/
theorem trace_positions (d : Dialect) (src : Bytes) : ∃ tree lines,
    d.parse src = .ok tree ∧ d.trace src = .ok lines ∧ tree.source = src ∧
    lines.length = tree.statements.length ∧
    (∀ k : Fin tree.statements.length,
      let pos := Pos.ofOffset d.columns src (d.offsetOf tree.statements k)
      let line := d.traceLine pos tree.statements[k]
      lines[(k : ℕ)]? = some line ∧ Ascii.lf ∉ line ∧
        ∃ n, (d.lexicon.lexer src).start n = pos) ∧
    ∀ o : Check.Options, ∃ r, Check.report { o with trace := false } d src = .ok r ∧ r.err = [] ∧
      Check.report { o with trace := true } d src
        = .ok { r with err := lines.flatMap Check.line } := by
  obtain ⟨tree, hparse, hplaced⟩ := d.parse_placed src
  have hsource := source_of_parse hparse
  let placed := placeStatements d.columns d.lead {} tree.statements
  let lines := placed.map fun p => d.traceLine p.1 p.2
  have htrace : d.trace src = .ok lines := by
    rw [trace, hplaced]
    rfl
  refine ⟨tree, lines, hparse, htrace, hsource, ?_, fun k => ?_, fun o => ?_⟩
  · have hstatements := congrArg List.length
      (map_snd_placeStatements d.columns d.lead {} tree.statements)
    rwa [List.length_map] at hstatements ⊢
  · obtain ⟨hpos, hstart⟩ := position_statement hparse k
    refine ⟨?_, lf_notMem_traceLine _ _ _, hstart⟩
    have hline := getElem?_placeStatements d.columns d.lead {} (List.getElem?_eq_getElem k.isLt)
    rw [List.getElem?_map, hline]
    exact congrArg (fun pos => some (d.traceLine pos tree.statements[k])) hpos
  · exact ⟨_, Check.report_eq _ hparse htrace hsource, rfl, Check.report_eq _ hparse htrace hsource⟩

/-- A comment and a space lead the first instruction, and a space the second. -/
example : palaiologos.trace (ascii "; c\n add / x")
    = .ok [ascii "[Palaiologos] 2:2 Add args=0", ascii "[Palaiologos] 2:8 Invalid args=0 !"] := by
  decide +kernel

end Dialect

end WhitespaceAsm

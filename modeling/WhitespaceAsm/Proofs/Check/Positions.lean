import WhitespaceAsm.Proofs.Check.Problems
import WhitespaceAsm.Proofs.Faithful.Tree

/-!
# Where problems are printed

The offset of a problem is found by adding up the lengths of the tokens before it in the tree, and
its column by counting the bytes of its line. Lexers keep positions of their own, whose columns can
count code points.

* `Inst.Flaw`, `Problem.Of`, **`Problem.PlacedIn`**: the token that a problem is about, and the part
  of the tree before it;
* **`Node.placedIn_of_mem_problems`**: the problems of a tree are at tokens of the tree;
* **`Dialect.problems_render`**: the position that is printed, against that of the lexer.
-/

namespace WhitespaceAsm

/-! ## Lengths -/

theorem statementsLength_append (ss ts : List Statement) :
    statementsLength (ss ++ ts) = statementsLength ss + statementsLength ts := by
  rw [statementsLength, List.flatMap_append, texts_append, List.length_append]
  rfl

theorem statementsLength_singleton (s : Statement) :
    statementsLength [s] = (texts s.tokens).length := by
  rw [statementsLength, List.flatMap_singleton]

theorem Node.length_eq (n : Node) : n.length = statementsLength n.statements := rfl

/-! ## What a problem is about -/

/-- **What is said about an instruction** at its head. -/
inductive Inst.Flaw (i : Inst) : Bytes → Prop
  | unknown (h : i.opcode = .invalid) :
      Flaw i (ascii "unknown instruction " ++ i.head.quoteName)
  | arity (h : ¬i.validArity) :
      Flaw i (ascii "wrong number of arguments for " ++ i.head.quoteName)
  | types (harity : i.validArity) (h : ¬i.validTypes) :
      Flaw i (ascii "argument types do not match " ++ i.head.quoteName)

namespace Problem

/-- **A problem of a statement** that starts at an offset. It stands where a token with an error
starts, or the head of an instruction with a flaw. -/
inductive Of (offset : Nat) (p : Problem) : Statement → Prop
  | token {s : Statement} {before after : List Token} {t : Token}
      (htokens : s.tokens = before ++ t :: after)
      (hoffset : p.offset = offset + (texts before).length)
      (herror : t.hasError) (hmessage : p.message = t.describe) : Of offset p s
  | head {i : Inst} (hoffset : p.offset = offset + (texts i.before).length)
      (hflaw : i.Flaw p.message) : Of offset p (.inst i)

/-- **A problem among statements**, the first of which starts at an offset: a problem of one of
them, or of an option block that begins with one of them. -/
inductive PlacedIn (offset : Nat) (ss : List Statement) (p : Problem) : Prop
  | statement {before after : List Statement} {s : Statement} (hss : ss = before ++ s :: after)
      (hp : p.Of (offset + statementsLength before) s) : PlacedIn offset ss p
  | optionBlock {before after : List Statement} (hss : ss = before ++ after)
      (hoffset : p.offset = offset + statementsLength before)
      (hmessage : p.message = ascii "malformed option block") : PlacedIn offset ss p

namespace PlacedIn

variable {offset : Nat} {p : Problem} {ss : List Statement}

theorem singleton {s : Statement} (h : p.Of offset s) : p.PlacedIn offset [s] :=
  .statement (List.nil_append [s]).symm h

theorem append_right (h : p.PlacedIn offset ss) (ts : List Statement) :
    p.PlacedIn offset (ss ++ ts) := by
  cases h with
  | @statement before after s hss hp =>
    have hsplit : ss ++ ts = before ++ s :: (after ++ ts) := by rw [hss]; simp
    exact .statement hsplit hp
  | @optionBlock before after hss hoffset hmessage =>
    have hsplit : ss ++ ts = before ++ (after ++ ts) := by rw [hss, List.append_assoc]
    exact .optionBlock hsplit hoffset hmessage

theorem append_left (ts : List Statement) (h : p.PlacedIn (offset + statementsLength ts) ss) :
    p.PlacedIn offset (ts ++ ss) := by
  cases h with
  | @statement before after s hss hp =>
    have hsplit : ts ++ ss = (ts ++ before) ++ s :: after := by rw [hss, List.append_assoc]
    refine .statement hsplit ?_
    rwa [statementsLength_append, ← Nat.add_assoc]
  | @optionBlock before after hss hoffset hmessage =>
    have hsplit : ts ++ ss = (ts ++ before) ++ after := by rw [hss, List.append_assoc]
    refine .optionBlock hsplit ?_ hmessage
    rwa [statementsLength_append, ← Nat.add_assoc]

end PlacedIn

end Problem

/-! ## Statements -/

theorem mem_tokensProblems {offset : Nat} {ts : List Token} {p : Problem}
    (h : p ∈ tokensProblems offset ts) : ∃ before t after, ts = before ++ t :: after ∧
      p.offset = offset + (texts before).length ∧ t.hasError ∧ p.message = t.describe := by
  induction ts generalizing offset with
  | nil => cases h
  | cons u ts ih =>
    rw [tokensProblems] at h
    obtain h | h := List.mem_append.1 h
    · rw [Token.problems] at h
      split at h
      · next herror =>
        obtain rfl := List.mem_singleton.1 h
        exact ⟨[], u, ts, rfl, rfl, herror, rfl⟩
      · cases h
    · obtain ⟨before, t, after, rfl, hoffset, herror, hmessage⟩ := ih h
      refine ⟨u :: before, t, after, rfl, ?_, herror, hmessage⟩
      rw [hoffset, texts_cons, List.length_append, Nat.add_assoc]

theorem Problem.Of.of_mem_tokensProblems {offset : Nat} {p : Problem} {s : Statement}
    {before ts after : List Token} (hs : s.tokens = before ++ ts ++ after)
    (h : p ∈ tokensProblems (offset + (texts before).length) ts) : p.Of offset s := by
  obtain ⟨first, t, last, rfl, hoffset, herror, hmessage⟩ := mem_tokensProblems h
  have htokens : s.tokens = (before ++ first) ++ t :: (last ++ after) := by
    rw [hs]
    simp
  refine .token htokens ?_ herror hmessage
  rw [hoffset, texts_append, List.length_append, Nat.add_assoc]

namespace Inst

variable {offset : Nat} {i : Inst} {p : Problem}

theorem of_mem_headProblems (h : p ∈ i.headProblems (offset + (texts i.before).length)) :
    p.Of offset (.inst i) := by
  rw [headProblems] at h
  split at h
  · next hopcode =>
    obtain rfl := List.mem_singleton.1 h
    exact .head rfl (.unknown hopcode)
  · have htokens : (Statement.inst i).tokens
        = i.before ++ [i.head] ++ (i.args.flatMap Arg.tokens ++ i.after) := by
      rw [Statement.tokens, tokens, List.append_assoc]
    refine .of_mem_tokensProblems htokens ?_
    rwa [tokensProblems, tokensProblems, List.append_nil]

theorem of_mem_fitProblems (h : p ∈ i.fitProblems (offset + (texts i.before).length)) :
    p.Of offset (.inst i) := by
  rw [fitProblems] at h
  split at h
  · next harity =>
    obtain rfl := List.mem_singleton.1 h
    exact .head rfl (.arity (by simpa using harity))
  split at h
  · next harity htypes =>
    obtain rfl := List.mem_singleton.1 h
    exact .head rfl (.types (by simpa using harity) (by simpa using htypes))
  · cases h

/-- **The problems of an instruction** are at its tokens. -/
theorem of_mem_problems (h : p ∈ i.problems offset) : p.Of offset (.inst i) := by
  simp only [problems, List.mem_append] at h
  obtain ((h | h) | h) | h := h
  · have htokens : (Statement.inst i).tokens
        = [] ++ i.before ++ ([i.head] ++ i.args.flatMap Arg.tokens ++ i.after) := by
      simp [Statement.tokens, tokens]
    exact .of_mem_tokensProblems htokens h
  · exact of_mem_headProblems h
  · have htokens : (Statement.inst i).tokens
        = (i.before ++ [i.head]) ++ (i.args.flatMap Arg.tokens ++ i.after) ++ [] := by
      simp [Statement.tokens, tokens]
    refine .of_mem_tokensProblems htokens ?_
    rwa [texts_append, texts_cons, texts_nil, List.append_nil, List.length_append, ← Nat.add_assoc]
  · exact of_mem_fitProblems h

end Inst

theorem Statement.of_mem_problems {offset : Nat} {s : Statement} {p : Problem}
    (h : p ∈ s.problems offset) : p.Of offset s := by
  cases s with
  | inst i => exact i.of_mem_problems h
  | emptyLine ts =>
    have htokens : (emptyLine ts).tokens = [] ++ ts ++ [] := (List.append_nil ts).symm
    exact .of_mem_tokensProblems htokens h

/-! ## Trees -/

namespace Node

mutual

/-- **The problems of a tree** are placed among its statements, by recursion over the tree. -/
theorem placedIn_of_mem_problems (offset : Nat) :
    ∀ n : Node, ∀ p ∈ n.problems offset, p.PlacedIn offset n.statements
  | statement s => by
    intro p hp
    rw [problems] at hp
    rw [statements]
    exact .singleton (s.of_mem_problems hp)
  | block nodes => by
    rw [problems, statements]
    exact placedIn_of_mem_problemsList offset nodes
  | optionBlock ⟨branches, close⟩ => by
    intro p hp
    have hbranches := placedIn_of_mem_problemsBranches offset branches
    have hmalformed : ∀ {ss}, p ∈ (if OptionBlock.malformed ⟨branches, close⟩ then
        [⟨offset, ascii "malformed option block"⟩] else []) → p.PlacedIn offset ss := by
      intro ss hp
      split at hp
      · obtain rfl := List.mem_singleton.1 hp
        exact .optionBlock (List.nil_append ss).symm rfl rfl
      · cases hp
    cases close with
    | none =>
      rw [problems, List.append_nil, List.mem_append] at hp
      rw [statements]
      obtain hp | hp := hp
      · exact (hbranches p hp).append_right _
      · exact hmalformed hp
    | some i =>
      rw [problems, List.mem_append, List.mem_append] at hp
      rw [statements]
      obtain (hp | hp) | hp := hp
      · exact (hbranches p hp).append_right _
      · exact .append_left _ (.singleton (i.of_mem_problems hp))
      · exact hmalformed hp
  | dialect _ inner => by
    rw [problems, statements]
    exact placedIn_of_mem_problemsOption offset inner

theorem placedIn_of_mem_problemsList (offset : Nat) :
    ∀ nodes : List Node, ∀ p ∈ problemsList offset nodes, p.PlacedIn offset (statementsList nodes)
  | [] => by
    intro p hp
    rw [problemsList] at hp
    cases hp
  | n :: ns => by
    intro p hp
    rw [problemsList, List.mem_append] at hp
    rw [statementsList]
    obtain hp | hp := hp
    · exact (placedIn_of_mem_problems offset n p hp).append_right _
    · rw [n.length_eq] at hp
      exact (placedIn_of_mem_problemsList _ ns p hp).append_left _

theorem placedIn_of_mem_problemsBranches (offset : Nat) : ∀ branches : List (Branch Node),
    ∀ p ∈ problemsBranches offset branches, p.PlacedIn offset (statementsBranches branches)
  | [] => by
    intro p hp
    rw [problemsBranches] at hp
    cases hp
  | ⟨condition, body⟩ :: bs => by
    intro p hp
    rw [problemsBranches, List.mem_append, List.mem_append] at hp
    have hlength : (texts condition.tokens).length = statementsLength [.inst condition] :=
      (statementsLength_singleton (.inst condition)).symm
    rw [hlength] at hp
    rw [statementsBranches, List.cons_append, ← List.singleton_append]
    obtain (hp | hp) | hp := hp
    · exact .append_right (.singleton (condition.of_mem_problems hp)) _
    · exact .append_left _ (.append_right (placedIn_of_mem_problemsList _ body p hp) _)
    · exact .append_left _ (.append_left _ (placedIn_of_mem_problemsBranches _ bs p hp))

theorem placedIn_of_mem_problemsOption (offset : Nat) :
    ∀ inner : Option Node, ∀ p ∈ problemsOption offset inner,
      p.PlacedIn offset (statementsOption inner)
  | none => by
    intro p hp
    rw [problemsOption] at hp
    cases hp
  | some n => by
    rw [problemsOption, statementsOption]
    exact placedIn_of_mem_problems offset n

end

end Node

/-! ## Offsets -/

theorem Problem.Of.exists_tokens {offset : Nat} {p : Problem} {s : Statement}
    (h : p.Of offset s) : ∃ before after, s.tokens = before ++ after ∧
      p.offset = offset + (texts before).length := by
  cases h with
  | token htokens hoffset _ _ => exact ⟨_, _, htokens, hoffset⟩
  | @head i hoffset _ =>
    refine ⟨i.before, [i.head] ++ i.args.flatMap Arg.tokens ++ i.after, ?_, hoffset⟩
    simp [Statement.tokens, Inst.tokens]

theorem Problem.PlacedIn.exists_tokens {offset : Nat} {p : Problem} {ss : List Statement}
    (h : p.PlacedIn offset ss) : ∃ before after, ss.flatMap Statement.tokens = before ++ after ∧
      p.offset = offset + (texts before).length := by
  cases h with
  | @statement first last s hss hp =>
    obtain ⟨before, after, htokens, hoffset⟩ := hp.exists_tokens
    refine ⟨first.flatMap Statement.tokens ++ before, after ++ last.flatMap Statement.tokens,
      ?_, ?_⟩
    · rw [hss, List.flatMap_append, List.flatMap_cons, htokens]
      simp
    · rw [hoffset, texts_append, List.length_append, statementsLength, Nat.add_assoc]
  | @optionBlock first last hss hoffset _ =>
    refine ⟨first.flatMap Statement.tokens, last.flatMap Statement.tokens, ?_, hoffset⟩
    rw [hss, List.flatMap_append]

namespace Dialect

variable {d : Dialect} {src : Bytes} {tree : Node}

/-- **Tokens of a tree start where tokens of the program start.** A word that has been put together
is several tokens of the program, and starts with the first of them. -/
theorem exists_texts_take_lex (hparse : d.parse src = .ok tree) {before after : List Token}
    (hsplit : tree.tokens = before ++ after) : ∃ n, texts ((d.lex src).take n) = texts before := by
  obtain ⟨tree', hparse', leaves, tail, hleaves, hread, htail⟩ := d.parse_leaves src
  obtain rfl := Except.ok.inj (hparse.symm.trans hparse')
  have hfaithful : ∀ t ∈ before, t.Faithful := fun t ht =>
    parse_faithful hparse t (by rw [hsplit]; exact List.mem_append_left _ ht)
  have htail : ∀ k, texts (tail.take k) = [] := by
    refine fun k => List.flatMap_eq_nil_iff.2 fun t ht => ?_
    have ht := List.mem_of_mem_take ht
    obtain rfl | rfl := htail
    · cases ht
    · obtain rfl := List.mem_singleton.1 ht
      rfl
  let n := (before.flatMap Token.leaves).length
  refine ⟨n, ?_⟩
  calc texts ((d.lex src).take n)
      = texts (leaves.take n) := by
        rw [texts, texts, List.flatMap_def, List.flatMap_def, List.map_take, List.map_take, hread]
    _ = texts ((leaves ++ tail).take n) := by
        rw [List.take_append, texts_append, htail, List.append_nil]
    _ = texts (before.flatMap Token.leaves) := by
        rw [← hleaves, Node.leaves, hsplit, List.flatMap_append, List.take_left]
    _ = texts before := Token.texts_flatMap_leaves hfaithful

theorem start_lexer_eq (n : Nat) : (d.lexicon.lexer src).start n
    = Pos.advance d.columns {} (src.take ((d.lexicon.lexer src).start n).offset) := by
  have hcolumns : (d.lexicon.lexer src).scanner.columns = d.columns := by
    cases d <;> rfl
  have hprefix : texts ((d.lex src).take n) <+: src := by
    refine ⟨texts ((d.lex src).drop n), ?_⟩
    rw [← texts_append, List.take_append_drop]
    exact d.lexicon.texts_lex src
  rw [Lexicon.offset_start_lexer]
  change _ = Pos.advance d.columns {} (src.take (texts ((d.lex src).take n)).length)
  rw [← List.prefix_iff_eq_take.1 hprefix, Lexer.start_eq (Lexicon.scanner_wellPlaced _ src)
    d.lexicon.next_readsStart, Lexicon.upcoming_lexer, Lexicon.pos_lexer, hcolumns]
  rfl

end Dialect

/-! ## Columns -/

namespace Problem

/-- A problem with the line and the column of a position. -/
def renderAt (pos : Pos) (p : Problem) : Bytes :=
  decimal pos.line ++ ascii ":" ++ decimal pos.column ++ ascii ": " ++ p.message

theorem renderAt_column_inj {p : Problem} {pos : Pos} {column : Nat} :
    p.renderAt { pos with column } = p.renderAt pos ↔ column = pos.column := by
  constructor
  · intro h
    have hcolumn := List.append_cancel_right (List.append_cancel_right h)
    exact decimal_injective (List.append_cancel_left hcolumn)
  · rintro rfl
    rfl

/-- **What is printed** has a column of bytes, whatever a lexer counts. -/
theorem render_eq_renderAt (u : ColumnUnit) (src : Bytes) (p : Problem) :
    let pos := Pos.advance u {} (src.take p.offset)
    p.render src
      = p.renderAt { pos with column := pos.column + u.uncounted (src.take p.offset) } := by
  intro pos
  rw [← Pos.advance_byte_eq u]
  rfl

end Problem

/-- **The position that is printed for a problem** is where the lexer starts a token. The column
also counts the bytes of the line that the lexer does not count. -/
theorem Dialect.problems_render (d : Dialect) (src : Bytes) : ∃ tree, d.parse src = .ok tree ∧
    ∀ p ∈ tree.problems 0, p.PlacedIn 0 tree.statements ∧
      (∃ n, ((d.lexicon.lexer src).start n).offset = p.offset) ∧
      ∀ n, ((d.lexicon.lexer src).start n).offset = p.offset →
        let start := (d.lexicon.lexer src).start n
        let skipped := d.columns.uncounted (src.take p.offset)
        p.render src = p.renderAt { start with column := start.column + skipped } ∧
        (p.render src = p.renderAt start ↔ skipped = 0) ∧
        (d ≠ .burghard → skipped = 0) := by
  obtain ⟨tree, hparse, -⟩ := d.parse_reading src
  refine ⟨tree, hparse, fun p hp => ?_⟩
  have hplaced := tree.placedIn_of_mem_problems 0 p hp
  refine ⟨hplaced, ?_, ?_⟩
  · obtain ⟨before, after, hsplit, hoffset⟩ := hplaced.exists_tokens
    obtain ⟨n, hn⟩ := exists_texts_take_lex hparse hsplit
    refine ⟨n, ?_⟩
    rw [Lexicon.offset_start_lexer, hoffset, Nat.zero_add, ← hn]
    rfl
  · intro n hn start skipped
    have hstart : start = Pos.advance d.columns {} (src.take p.offset) := by
      rw [← hn]
      exact start_lexer_eq n
    have hrender : p.render src = p.renderAt { start with column := start.column + skipped } := by
      rw [hstart]
      exact p.render_eq_renderAt d.columns src
    refine ⟨hrender, ?_, ?_⟩
    · rw [hrender, Problem.renderAt_column_inj]
      exact Nat.add_eq_left
    · intro hd
      cases d with
      | burghard => exact absurd rfl hd
      | palaiologos | voliva => exact ColumnUnit.uncounted_byte _

/-- A Burghard program: a comment with a code point of two bytes, and a word that is no
instruction behind it. -/
def accentedComment : Bytes := ascii "\x7b-" ++ [0xC3, 0xA9] ++ ascii "-\x7dx"

/-- **The columns can differ.** The word is said to be in the seventh one, and the lexer has it in
the sixth. -/
theorem Dialect.problems_render_accentedComment :
    ∃ tree p, Dialect.burghard.parse accentedComment = .ok tree ∧ p ∈ tree.problems 0 ∧
      ((Dialect.burghard.lexicon.lexer accentedComment).start 1).offset = p.offset ∧
      p.render accentedComment = ascii "1:7: unknown instruction 'x'" ∧
      p.renderAt ((Dialect.burghard.lexicon.lexer accentedComment).start 1)
        = ascii "1:6: unknown instruction 'x'" := by
  have hproblems : (Dialect.burghard.parse accentedComment).map (·.problems 0)
      = .ok [⟨6, ascii "unknown instruction 'x'"⟩] := by decide +kernel
  obtain ⟨tree, hparse, -⟩ := Dialect.burghard.parse_reading accentedComment
  rw [hparse] at hproblems
  have htree : tree.problems 0 = [⟨6, ascii "unknown instruction 'x'"⟩] := Except.ok.inj hproblems
  refine ⟨tree, ⟨6, ascii "unknown instruction 'x'"⟩, hparse, ?_, ?_, ?_, ?_⟩
  · rw [htree]
    exact List.mem_singleton_self _
  · decide +kernel
  · decide +kernel
  · decide +kernel

end WhitespaceAsm

import Mathlib.Data.List.TakeWhile
import WhitespaceAsm.Proofs.Lexing
import WhitespaceAsm.Tree.Reader

/-!
# Reading keeps every token

Each part of a statement takes tokens from the start of what remains, and what it leaves is read
next. A reader that does so for one statement does so for a whole program.

* `takeWhile_spec`, `forall_mem_takeWhile`, **`readArgs_spec`**, `readArgs_separators`,
  `takeToken_spec`, **`readLineEnd_spec`**, `readLineEnd_line`: the parts of a statement;
* `StatementReader.Keeps`, **`StatementReader.readAll_spec`**: one statement, and all of them;
  `StatementReader.forall_tokens_readAll`: a property of their tokens.
-/

namespace WhitespaceAsm

/-- Tokens without their positions. -/
def tokensOf (ts : List Located) : List Token := ts.map Located.token

@[simp]
theorem tokensOf_nil : tokensOf [] = [] := rfl

@[simp]
theorem tokensOf_cons (t : Located) (ts : List Located) :
    tokensOf (t :: ts) = t.token :: tokensOf ts := rfl

@[simp]
theorem tokensOf_append (ts us : List Located) : tokensOf (ts ++ us) = tokensOf ts ++ tokensOf us :=
  List.map_append

theorem tokensOf_locate (u : ColumnUnit) (p : Pos) (ts : List Token) :
    tokensOf (locate u p ts) = ts := by
  induction ts generalizing p with
  | nil => rfl
  | cons t ts ih => rw [locate, tokensOf_cons, ih]

/-- The tokens behind those of the program: the end of the input when it has been reached, and
otherwise none. -/
def EndsInput (rest : List Located) (tail : List Token) : Prop :=
  tail = [] ∨ tail = [Token.endOfInput] ∧ rest = []

theorem EndsInput.append_comm {rest : List Located} {tail : List Token} (h : EndsInput rest tail) :
    tail ++ tokensOf rest = tokensOf rest ++ tail := by
  obtain rfl | ⟨rfl, rfl⟩ := h
  · rw [List.nil_append, List.append_nil]
  · rfl

/-! ## Parts of a statement -/

theorem takeWhile_spec (p : Token → Bool) (ts : List Located) :
    let taken := ts.takeWhile (p ·.token)
    taken ++ ts.drop taken.length = ts ∧
      ∀ t ∈ (ts.drop taken.length).head?, p t.token = false := by
  intro taken
  refine ⟨List.prefix_iff_eq_append.1 (List.takeWhile_prefix _), fun t ht => ?_⟩
  exact not_of_drop_takeWhile (p := fun t : Located => p t.token) ht

theorem forall_mem_takeWhile (p : Token → Bool) (ts : List Located) :
    ∀ t ∈ tokensOf (ts.takeWhile (p ·.token)), p t := by
  intro t ht
  obtain ⟨u, hu, rfl⟩ := List.mem_map.1 ht
  exact List.mem_takeWhile_imp (p := fun t : Located => p t.token) hu

/-- **Arguments take tokens in order** up to one that is neither a separator nor an argument. -/
theorem readArgs_spec (separates isArg : Token → Bool) (sep : List Token) (ts : List Located) :
    let read := readArgs separates isArg sep ts
    read.args.flatMap Arg.tokens ++ read.after ++ tokensOf read.rest = sep ++ tokensOf ts ∧
      read.rest <:+ ts ∧ (∀ a ∈ read.args, isArg a.token) ∧
      ∀ t ∈ read.rest.head?, separates t.token = false ∧ isArg t.token = false := by
  induction ts generalizing sep with
  | nil => simp [readArgs]
  | cons t ts ih =>
    intro read
    by_cases hsep : separates t.token
    · obtain ⟨htokens, hrest, hargs, hhead⟩ := ih (sep ++ [t.token])
      have hread : read = readArgs separates isArg (sep ++ [t.token]) ts := by
        simp only [read, readArgs, if_pos hsep]
      rw [hread]
      refine ⟨?_, hrest.trans (List.suffix_cons t ts), hargs, hhead⟩
      rw [htokens, tokensOf_cons, List.append_assoc, List.singleton_append]
    by_cases harg : isArg t.token
    · obtain ⟨htokens, hrest, hargs, hhead⟩ := ih []
      have hread : read = { readArgs separates isArg [] ts with
          args := ⟨sep, t.token⟩ :: (readArgs separates isArg [] ts).args } := by
        simp only [read, readArgs, if_neg hsep, if_pos harg]
      rw [hread]
      refine ⟨?_, hrest.trans (List.suffix_cons t ts), ?_, hhead⟩
      · dsimp only
        rw [List.flatMap_cons, List.append_assoc, List.append_assoc,
          ← List.append_assoc _ _ (tokensOf _), htokens]
        simp [Arg.tokens]
      · exact List.forall_mem_cons.2 ⟨harg, hargs⟩
    · have hread : read = ⟨[], sep, t :: ts⟩ := by
        simp only [read, readArgs, if_neg hsep, if_neg harg]
      rw [hread]
      exact ⟨rfl, List.suffix_refl _, by simp, by simp [hsep, harg]⟩

/-- Only separators stand before the arguments and behind the last of them. -/
theorem readArgs_separators (separates isArg : Token → Bool) {sep : List Token}
    (hsep : ∀ t ∈ sep, separates t) (ts : List Located) :
    let read := readArgs separates isArg sep ts
    (∀ a ∈ read.args, (∀ t ∈ a.sep, separates t) ∧ separates a.token = false) ∧
      ∀ t ∈ read.after, separates t := by
  induction ts generalizing sep with
  | nil => exact ⟨by simp [readArgs], hsep⟩
  | cons t ts ih =>
    rw [readArgs]
    split
    · next ht => exact ih (List.forall_mem_append.2 ⟨hsep, List.forall_mem_singleton.2 ht⟩)
    · next ht =>
      split
      · have hnil : ∀ t ∈ ([] : List Token), separates t := by simp
        obtain ⟨hargs, hafter⟩ := ih hnil
        exact ⟨List.forall_mem_cons.2 ⟨⟨hsep, Bool.eq_false_iff.2 ht⟩, hargs⟩, hafter⟩
      · exact ⟨by simp, hsep⟩

theorem takeToken_spec (p : Token → Bool) (ts : List Located) :
    (takeToken p ts).1 ++ tokensOf (takeToken p ts).2 = tokensOf ts ∧
      (takeToken p ts).2 <:+ ts := by
  cases ts with
  | nil => exact ⟨rfl, List.suffix_refl _⟩
  | cons t ts =>
    by_cases hp : p t.token
    · simp only [takeToken, if_pos hp]
      exact ⟨rfl, List.suffix_cons t ts⟩
    · simp only [takeToken, if_neg hp]
      exact ⟨rfl, List.suffix_refl _⟩

/-- **The end of a line is found** when the tokens begin with one, with a comment before one, or end
there. -/
theorem readLineEnd_spec {ends : Token → Bool} {ts : List Located}
    (hhead : ∀ t ∈ ts.head?, t.token.kind = .lineComment ∨ ends t.token)
    (hchain : (tokensOf ts).IsChain fun t u => t.kind = .lineComment → ends u) :
    ∃ close rest tail, readLineEnd ends ts = .ok (close ++ tail, rest) ∧
      close ++ tokensOf rest = tokensOf ts ∧ rest <:+ ts ∧ EndsInput rest tail := by
  cases ts with
  | nil => exact ⟨[], [], [Token.endOfInput], rfl, rfl, List.suffix_refl _, .inr ⟨rfl, rfl⟩⟩
  | cons t ts =>
    by_cases hcomment : t.token.kind = .lineComment
    · have htake : takeToken (·.kind == .lineComment) (t :: ts) = ([t.token], ts) := by
        rw [takeToken, if_pos (beq_iff_eq.2 hcomment)]
      rw [readLineEnd, htake]
      cases ts with
      | nil =>
        exact ⟨[t.token], [], [Token.endOfInput], rfl, rfl, List.suffix_cons t [], .inr ⟨rfl, rfl⟩⟩
      | cons u ts =>
        have hends : ends u.token := (List.isChain_cons_cons.1 hchain).1 hcomment
        refine ⟨[t.token, u.token], ts, [], ?_, rfl, ?_, .inl rfl⟩
        · simp only [hends, if_true]
          rfl
        · exact (List.suffix_cons u ts).trans (List.suffix_cons t _)
    · have hends : ends t.token := (hhead t rfl).resolve_left hcomment
      have htake : takeToken (·.kind == .lineComment) (t :: ts) = ([], t :: ts) := by
        rw [takeToken, if_neg (by simpa using hcomment)]
      rw [readLineEnd, htake]
      refine ⟨[t.token], ts, [], ?_, rfl, List.suffix_cons t ts, .inl rfl⟩
      simp only [hends, if_true]
      rfl

/-- **What the end of a line is made of**: a comment or none, and then a token that ends the line,
or the end of the input behind something else. -/
theorem readLineEnd_line {ends : Token → Bool} {ts rest : List Located} {line : List Token}
    (h : readLineEnd ends ts = .ok (line, rest)) :
    ∃ comment close, line = comment ++ [close] ∧ (∀ t ∈ comment, t.kind = .lineComment) ∧
      (ends close ∨ close = Token.endOfInput ∧ (ts ≠ [] → comment ≠ [])) := by
  cases ts with
  | nil =>
    cases h
    exact ⟨[], _, rfl, by simp, .inr ⟨rfl, absurd rfl⟩⟩
  | cons t ts =>
    by_cases hcomment : t.token.kind = .lineComment
    · have hkind : ∀ u ∈ [t.token], u.kind = .lineComment := by simpa using hcomment
      have htake : takeToken (·.kind == .lineComment) (t :: ts) = ([t.token], ts) := by
        rw [takeToken, if_pos (beq_iff_eq.2 hcomment)]
      rw [readLineEnd, htake] at h
      cases ts with
      | nil =>
        cases h
        exact ⟨[t.token], _, rfl, hkind, .inr ⟨rfl, fun _ => List.cons_ne_nil _ _⟩⟩
      | cons u ts =>
        by_cases hends : ends u.token
        · simp only [hends, if_true] at h
          cases h
          exact ⟨[t.token], u.token, rfl, hkind, .inl hends⟩
        · simp only [hends] at h
          cases h
    · have htake : takeToken (·.kind == .lineComment) (t :: ts) = ([], t :: ts) := by
        rw [takeToken, if_neg (by simpa using hcomment)]
      rw [readLineEnd, htake] at h
      by_cases hends : ends t.token
      · simp only [hends, if_true] at h
        cases h
        exact ⟨[], t.token, rfl, by simp, .inl hends⟩
      · simp only [hends] at h
        cases h

/-! ## Statements -/

namespace StatementReader

/-- **A reader keeps the tokens of what it reads.** It reads whatever begins with tokens that are
`Ok`. Its statement is finished from a raw one, in which the tokens are as they have been read, up
to the end of the input behind the last of them. -/
def Keeps (r : StatementReader) (Ok : List Located → Prop) (Raw : Statement → Prop)
    (finish : Statement → Statement) : Prop :=
  ∀ t ts, Ok (t :: ts) → ∃ start raw rest tail,
    r.read t ts = .ok ⟨start, finish raw, rest⟩ ∧ Ok rest ∧ Raw raw ∧
      raw.tokens ++ tokensOf rest = tokensOf (t :: ts) ++ tail ∧ EndsInput rest tail

theorem Keeps.mono {r : StatementReader} {Ok : List Located → Prop} {Raw Raw' : Statement → Prop}
    {finish : Statement → Statement} (h : r.Keeps Ok Raw finish) (hraw : ∀ s, Raw s → Raw' s) :
    r.Keeps Ok Raw' finish := by
  intro t ts hts
  obtain ⟨start, raw, rest, tail, hread, hrest, hs, hend⟩ := h t ts hts
  exact ⟨start, raw, rest, tail, hread, hrest, hraw raw hs, hend⟩

theorem readAll_cons {r : StatementReader} {t : Located} {ts : List Located} {p : ParsedStatement}
    (h : r.read t ts = .ok p) :
    r.readAll (t :: ts) = (r.readAll p.rest).map ((p.start, p.statement) :: ·) := by
  rw [readAll]
  split
  · next e he => rw [h] at he; cases he
  · next q hq =>
    obtain rfl : p = q := by rw [h] at hq; cases hq; rfl
    cases r.readAll p.rest with
    | error e => rfl
    | ok more => rfl

theorem readAll_cons_error {r : StatementReader} {t : Located} {ts : List Located} {e : ParseError}
    (h : r.read t ts = .error e) : r.readAll (t :: ts) = .error e := by
  rw [readAll]
  split
  · next e' he => rw [h] at he; cases he; rfl
  · next p hp => rw [h] at hp; cases hp

/-- **A whole program is read**, and its statements are finished from raw ones whose tokens are
those of the program. -/
theorem readAll_spec {r : StatementReader} {Ok : List Located → Prop} {Raw : Statement → Prop}
    {finish : Statement → Statement} (h : r.Keeps Ok Raw finish) {ts : List Located} (hts : Ok ts) :
    ∃ (ss : List (Pos × Statement)) (raws : List Statement) (tail : List Token),
      r.readAll ts = .ok ss ∧ ss.map (·.2) = raws.map finish ∧ (∀ raw ∈ raws, Raw raw) ∧
      raws.flatMap Statement.tokens = tokensOf ts ++ tail ∧
      (tail = [] ∨ tail = [Token.endOfInput]) := by
  induction hn : ts.length using Nat.strong_induction_on generalizing ts with
  | _ n ih =>
    cases ts with
    | nil => exact ⟨[], [], [], by rw [readAll], rfl, by simp, rfl, .inl rfl⟩
    | cons t ts =>
      obtain ⟨start, raw, rest, tail, hread, hrest, hraw, htokens, hend⟩ := h t ts hts
      -- the end of the input is put in only where nothing is left, and so at most once
      obtain rfl | ⟨rfl, rfl⟩ := hend
      · have hlt : rest.length < n := by
          rw [← hn, List.length_cons]
          exact Nat.lt_succ_of_le (r.rest_length_le hread)
        obtain ⟨ss, raws, tail, hall, hss, hraws, htail, hend⟩ := ih rest.length hlt hrest rfl
        refine ⟨(start, finish raw) :: ss, raw :: raws, tail, ?_, ?_, ?_, ?_, hend⟩
        · rw [readAll_cons hread, hall]; rfl
        · rw [List.map_cons, List.map_cons, hss]
        · exact List.forall_mem_cons.2 ⟨hraw, hraws⟩
        · rw [List.flatMap_cons, htail, ← List.append_assoc, htokens, List.append_nil]
      · refine ⟨[(start, finish raw)], [raw], [Token.endOfInput], ?_, rfl, ?_, ?_, .inr rfl⟩
        · rw [readAll_cons hread, readAll]; rfl
        · simpa using hraw
        · rw [List.flatMap_cons, List.flatMap_nil]; exact htokens

/-- **What holds of the tokens of a program** and of the end of the input holds of the tokens of its
statements, if finishing a statement keeps it. -/
theorem forall_tokens_readAll {r : StatementReader} {Ok : List Located → Prop}
    {Raw : Statement → Prop} {finish : Statement → Statement} (h : r.Keeps Ok Raw finish)
    {ts : List Located} (hts : Ok ts) {P : Token → Prop} (hP : ∀ t ∈ tokensOf ts, P t)
    (hend : P Token.endOfInput)
    (hfinish : ∀ raw, (∀ t ∈ raw.tokens, P t) → ∀ t ∈ (finish raw).tokens, P t)
    {ss : List (Pos × Statement)} (hss : r.readAll ts = .ok ss) :
    ∀ s ∈ ss.map (·.2), ∀ t ∈ s.tokens, P t := by
  obtain ⟨ss', raws, tail, hall, hmap, -, htokens, htail⟩ := readAll_spec h hts
  obtain rfl := Except.ok.inj (hss.symm.trans hall)
  have hraw : ∀ t ∈ raws.flatMap Statement.tokens, P t := by
    rw [htokens]
    refine List.forall_mem_append.2 ⟨hP, ?_⟩
    obtain rfl | rfl := htail
    · simp
    · simpa using hend
  rw [hmap]
  intro s hs
  obtain ⟨raw, hmem, rfl⟩ := List.mem_map.1 hs
  exact hfinish raw fun t ht => hraw t (List.mem_flatMap.2 ⟨raw, hmem, ht⟩)

end StatementReader

end WhitespaceAsm

import WhitespaceAsm.Proofs.Tree.Reader
import WhitespaceAsm.Tree.LineReader

/-!
# Reading lines keeps every token

A dialect with one instruction a line reads every list of tokens in which each token is of one of
its classes and only the end of a line follows a comment.

* **`LineRules.Parted`**: where its tokens stand; **`LineRules.Line`**: which of them end lines;
  `LineRules.parted_inst`, `LineRules.parted_emptyLine`: what is read as one;
* **`LineRules.keeps_parted`**, `LineRules.keeps_lines`, `LineRules.keeps`: reading lines keeps the
  tokens.
-/

namespace WhitespaceAsm

/-- The tokens of a statement up to its last one that is no separator, a word or a comment. -/
def Statement.lineEnd : Statement → List Token
  | inst i => i.after
  | emptyLine tokens => tokens

/-- The tokens of a statement before its head and before its arguments. -/
def Statement.separators : Statement → List Token
  | inst i => i.before ++ i.args.flatMap Arg.sep
  | emptyLine _ => []

namespace LineRules

variable (r : LineRules)

/-- **The tokens that a dialect reads.** Each is of a class of the dialect, and a comment ends with
its line. -/
structure Reads (ts : List Token) : Prop where
  classes : ∀ t ∈ ts, r.separates t ∨ r.isWord t ∨ t.kind = .lineComment ∨ r.endsLine t
  chain : ts.IsChain fun t u => t.kind = .lineComment → r.endsLine u

/-- A line whose words have not been interpreted. -/
def Raw : Statement → Prop
  | .inst i => r.isWord i.head ∧ ∀ a ∈ i.args, r.isWord a.token
  | .emptyLine _ => True

/-- **A line as it has been read.** It ends in a token that ends lines, or in the end of the input
behind something else, and nothing before does so. -/
def Line (s : Statement) : Prop :=
  ∃ front spaces close, s.tokens = front ++ [close] ∧ s.lineEnd = spaces ++ [close] ∧
    (∀ t ∈ front, r.separates t ∨ r.isWord t ∨ t.kind = .lineComment) ∧
    (r.endsLine close ∨ close = Token.endOfInput ∧ front ≠ [])

/-- **A line by the places of its tokens.** Separators stand before its head and its arguments, and
at most a comment between what separates them from its end and the token that ends it. -/
structure Parted (s : Statement) : Prop where
  separators : ∀ t ∈ s.separators, r.separates t
  lineEnd : ∃ spaces close, s.lineEnd = spaces ++ [close] ∧
    (∀ t ∈ spaces, r.separates t ∨ t.kind = .lineComment) ∧
    (r.endsLine close ∨ close = Token.endOfInput ∧ s.tokens ≠ [close])

/-- A line after its instruction has been finished. -/
def finishStatement : Statement → Statement
  | .inst i => .inst (r.finish i)
  | .emptyLine ts => .emptyLine ts

variable {r}

theorem Reads.of_suffix {ts us : List Located} (h : r.Reads (tokensOf ts)) (hus : us <:+ ts) :
    r.Reads (tokensOf us) := by
  have hsuffix : tokensOf us <:+ tokensOf ts := hus.map _
  exact ⟨fun t ht => h.classes t (hsuffix.subset ht), h.chain.suffix hsuffix⟩

theorem Reads.readLineEnd {ts : List Located} (h : r.Reads (tokensOf ts))
    (hhead : ∀ t ∈ ts.head?, r.separates t.token = false ∧ r.isWord t.token = false) :
    ∃ close rest tail, readLineEnd r.endsLine ts = .ok (close ++ tail, rest) ∧
      close ++ tokensOf rest = tokensOf ts ∧ rest <:+ ts ∧ EndsInput rest tail := by
  refine readLineEnd_spec (fun t ht => ?_) h.chain
  obtain ⟨hsep, hword⟩ := hhead t ht
  have hmem : t.token ∈ tokensOf ts := List.mem_map_of_mem (List.mem_of_mem_head? ht)
  obtain h | h | h | h := h.classes _ hmem
  · rw [hsep] at h; cases h
  · rw [hword] at h; cases h
  · exact .inl h
  · exact .inr h

/-! ## Lines -/

/-- **Where the tokens of a line stand says which of them end lines.** -/
theorem Parted.line {s : Statement} (h : r.Parted s) (hraw : r.Raw s) : r.Line s := by
  obtain ⟨hseparators, spaces, close, hend, hspaces, hclose⟩ := h
  have hspaces' : ∀ t ∈ spaces, r.separates t ∨ r.isWord t ∨ t.kind = .lineComment :=
    fun t ht => (hspaces t ht).imp_right .inr
  cases s with
  | emptyLine tokens =>
    obtain rfl : tokens = spaces ++ [close] := hend
    refine ⟨spaces, spaces, close, rfl, rfl, hspaces', hclose.imp_right fun h => ⟨h.1, ?_⟩⟩
    rintro rfl
    exact h.2 rfl
  | inst i =>
    rw [Statement.separators, List.forall_mem_append, List.forall_mem_flatMap] at hseparators
    obtain ⟨hbefore, hargs⟩ := hseparators
    refine ⟨i.before ++ [i.head] ++ i.args.flatMap Arg.tokens ++ spaces, spaces, close, ?_, hend,
      ?_, hclose.imp_right fun h => ⟨h.1, by simp⟩⟩
    · have hafter : i.after = spaces ++ [close] := hend
      rw [Statement.tokens, Inst.tokens, hafter, ← List.append_assoc]
    · simp only [List.forall_mem_append, List.forall_mem_singleton, List.forall_mem_flatMap]
      refine ⟨⟨⟨fun t ht => .inl (hbefore t ht), .inr (.inl hraw.1)⟩, fun a ha t ht => ?_⟩,
        hspaces'⟩
      rcases List.mem_append.1 ht with ht | ht
      · exact .inl (hargs a ha t ht)
      · exact .inr (.inl (List.mem_singleton.1 ht ▸ hraw.2 a ha))

theorem parted_inst {i : Inst} {after line : List Token} {ts rest : List Located}
    (hbefore : ∀ t ∈ i.before, r.separates t) (hargs : ∀ a ∈ i.args, ∀ t ∈ a.sep, r.separates t)
    (hafter : ∀ t ∈ after, r.separates t) (hi : i.after = after ++ line)
    (h : readLineEnd r.endsLine ts = .ok (line, rest)) : r.Parted (.inst i) := by
  obtain ⟨comment, close, rfl, hcomment, hclose⟩ := readLineEnd_line h
  rw [← List.append_assoc] at hi
  refine ⟨List.forall_mem_append.2 ⟨hbefore, List.forall_mem_flatMap.2 hargs⟩,
    after ++ comment, close, hi, ?_, hclose.imp_right fun hend => ⟨hend.1, fun he => ?_⟩⟩
  · exact List.forall_mem_append.2
      ⟨fun t ht => .inl (hafter t ht), fun t ht => .inr (hcomment t ht)⟩
  · have hlength := congrArg List.length he
    simp only [Statement.tokens, Inst.tokens, hi, List.length_append, List.length_singleton]
      at hlength
    omega

theorem parted_emptyLine {before line : List Token} {ts rest : List Located}
    (hbefore : ∀ t ∈ before, r.separates t) (hts : ts ≠ [])
    (h : readLineEnd r.endsLine ts = .ok (line, rest)) :
    r.Parted (.emptyLine (before ++ line)) := by
  obtain ⟨comment, close, rfl, hcomment, hclose⟩ := readLineEnd_line h
  have htokens : before ++ (comment ++ [close]) = before ++ comment ++ [close] :=
    (List.append_assoc _ _ _).symm
  refine ⟨List.forall_mem_nil _, before ++ comment, close, htokens, ?_,
    hclose.imp_right fun hend => ⟨hend.1, fun he => hend.2 hts ?_⟩⟩
  · exact List.forall_mem_append.2
      ⟨fun t ht => .inl (hbefore t ht), fun t ht => .inr (hcomment t ht)⟩
  · have hnil : before ++ comment = [] := List.append_cancel_right (htokens.symm.trans he)
    exact (List.append_eq_nil_iff.1 hnil).2

theorem parted_separators {before : List Token} (hbefore : ∀ t ∈ before, r.separates t)
    (hne : before ≠ []) : r.Parted (.emptyLine (before ++ [Token.endOfInput])) :=
  ⟨List.forall_mem_nil _, before, Token.endOfInput, rfl, fun t ht => .inl (hbefore t ht),
    .inr ⟨rfl, fun he => hne (List.append_left_eq_self.1 he)⟩⟩

/-! ## Reading -/

/-- **An instruction keeps its tokens**, and ends its line. -/
theorem readInst_spec {before : List Token} (hbefore : ∀ t ∈ before, r.separates t) {head : Token}
    (hhead : r.isWord head) {ts : List Located} (h : r.Reads (tokensOf ts)) :
    ∃ i rest tail, r.readInst before head ts = .ok (r.finish i, rest) ∧
      (r.Raw (.inst i) ∧ r.Parted (.inst i)) ∧
      i.tokens ++ tokensOf rest = before ++ head :: tokensOf ts ++ tail ∧ rest <:+ ts ∧
      EndsInput rest tail := by
  obtain ⟨hread, hsuffix, hargs, hstop⟩ := readArgs_spec r.separates r.isWord [] ts
  obtain ⟨hseps, hafter⟩ := readArgs_separators r.separates r.isWord (List.forall_mem_nil _) ts
  obtain ⟨close, rest, tail, hclose, htokens, hrest, hend⟩ :=
    (h.of_suffix hsuffix).readLineEnd hstop
  let read := readArgs r.separates r.isWord [] ts
  refine ⟨{ before, head, args := read.args, after := read.after ++ (close ++ tail) }, rest, tail,
    ?_, ⟨⟨hhead, hargs⟩, ?_⟩, ?_, hrest.trans hsuffix, hend⟩
  · simp only [readInst, hclose]
    rfl
  · exact parted_inst hbefore (fun a ha => (hseps a ha).1) hafter rfl hclose
  · rw [List.nil_append] at hread
    rw [Inst.tokens, ← hread, ← htokens]
    simp only [List.append_assoc, hend.append_comm, List.cons_append, List.nil_append]
    rfl

/-- **Reading lines keeps the tokens** and where they stand. -/
theorem keeps_parted (r : LineRules) : r.reader.Keeps (fun ts => r.Reads (tokensOf ts))
    (fun s => r.Raw s ∧ r.Parted s) r.finishStatement := by
  intro t ts h
  obtain ⟨hsplit, hstop⟩ := takeWhile_spec r.separates (t :: ts)
  let spaces := (t :: ts).takeWhile (r.separates ·.token)
  have hspaces : ∀ u ∈ tokensOf spaces, r.separates u := forall_mem_takeWhile r.separates (t :: ts)
  have hbefore :
      tokensOf (t :: ts) = tokensOf spaces ++ tokensOf ((t :: ts).drop spaces.length) := by
    rw [← tokensOf_append, hsplit]
  have hsuffix : (t :: ts).drop spaces.length <:+ t :: ts := List.drop_suffix _ _
  have hread : r.reader.read t ts = r.readStatement t ts := rfl
  rw [hread, readStatement]
  dsimp only
  cases hdrop : (t :: ts).drop spaces.length with
  | nil =>
    rw [hdrop, tokensOf_nil, List.append_nil] at hbefore
    refine ⟨t.start, .emptyLine (tokensOf spaces ++ [Token.endOfInput]), [], [Token.endOfInput],
      rfl, ⟨by simp, by simp⟩, ⟨trivial, parted_separators hspaces ?_⟩, ?_, .inr ⟨rfl, rfl⟩⟩
    · rw [← hbefore]
      exact List.cons_ne_nil _ _
    · rw [hbefore]
      simp [Statement.tokens]
  | cons head more =>
    rw [hdrop] at hbefore hsuffix hstop
    have hmore : more <:+ t :: ts := (List.suffix_cons head more).trans hsuffix
    by_cases hword : r.isWord head.token
    · obtain ⟨i, rest, tail, hi, hraw, htokens, hrest, hend⟩ :=
        readInst_spec hspaces hword (h.of_suffix hmore)
      refine ⟨t.start, .inst i, rest, tail, ?_, h.of_suffix (hrest.trans hmore), hraw, ?_, hend⟩
      · simp only [hword, if_true]
        rw [show (spaces.map (·.token)) = tokensOf spaces from rfl, hi]
        rfl
      · rw [hbefore]
        exact htokens
    · obtain ⟨close, rest, tail, hclose, htokens, hrest, hend⟩ :=
        (h.of_suffix hsuffix).readLineEnd (fun u hu => ⟨hstop u hu, by
          rw [List.head?_cons, Option.mem_some] at hu
          subst hu
          simpa using hword⟩)
      refine ⟨t.start, .emptyLine (tokensOf spaces ++ (close ++ tail)), rest, tail, ?_,
        h.of_suffix (hrest.trans hsuffix), ⟨trivial, ?_⟩, ?_, hend⟩
      · simp only [hword, hclose]
        rfl
      · exact parted_emptyLine hspaces (List.cons_ne_nil _ _) hclose
      · rw [hbefore, ← htokens]
        simp only [Statement.tokens, List.append_assoc, hend.append_comm]

theorem keeps_lines (r : LineRules) : r.reader.Keeps (fun ts => r.Reads (tokensOf ts))
    (fun s => r.Raw s ∧ r.Line s) r.finishStatement :=
  (keeps_parted r).mono fun _ h => ⟨h.1, h.2.line h.1⟩

theorem keeps (r : LineRules) :
    r.reader.Keeps (fun ts => r.Reads (tokensOf ts)) r.Raw r.finishStatement :=
  (keeps_parted r).mono fun _ h => h.1

end LineRules

end WhitespaceAsm

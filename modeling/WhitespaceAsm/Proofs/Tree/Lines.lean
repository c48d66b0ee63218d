import WhitespaceAsm.Proofs.Finish

/-!
# One statement a line

A line that has been read ends in one token that ends lines, and in no other. Finishing it changes
neither, so that the statements of a program are as many as its lines.

* `closeKinds`, **`Token.InLine`**: a token in which no line ends;
* **`Statement.IsLine`**: only the last token of a statement ends a line;
* `LineRules.Apart`, `LineRules.InLines`: what stands inside a line does not end it;
  `LineRules.Line.isLine`, `LineRules.length_lines`: a line after it is finished, and the number of
  lines; **`LineRules.readAll_lines`**: a whole program.
-/

namespace WhitespaceAsm

/-! ## Tokens inside a line -/

/-- The kinds of tokens that can end a line. -/
def closeKinds : List TokenKind := [.lineTerm, .endOfInput, .error]

/-- **A token in which no line ends**: neither it nor a token that it wraps is of such a kind. -/
inductive Token.InLine : Token → Prop
  | plain {text : Bytes} {p : Payload} (h : p.kind ∉ closeKinds) : InLine (.plain text p)
  | quoted {text : Bytes} {inner : Token} {quotes : QuoteStyle} {terminated : Bool}
      (h : inner.InLine) : InLine (.quoted text (some inner) quotes terminated)
  | spliced {text : Bytes} {parts : List Token} {word : Token} (hparts : ∀ t ∈ parts, t.InLine)
      (h : word.InLine) : InLine (.spliced text parts (some word))

namespace Token.InLine

variable {t : Token}

theorem retype (h : t.InLine) {p : Payload} (hp : p.kind ∉ closeKinds) : (t.retype p).InLine := by
  induction h with
  | plain _ => exact .plain hp
  | quoted _ ih => exact .quoted ih
  | spliced hparts _ _ ih => exact .spliced hparts ih

theorem mnemonic (t : Token) (opcode : Opcode) (h : t.InLine) :
    (t.retype (.mnemonic opcode)).InLine := by
  apply h.retype
  show TokenKind.mnemonic ∉ closeKinds
  decide

theorem kind_notMem (h : t.InLine) : t.kind ∉ closeKinds := by
  cases h with
  | plain h => exact h
  | quoted h => exact (by decide : TokenKind.quoted ∉ closeKinds)
  | spliced hparts h => exact (by decide : TokenKind.spliced ∉ closeKinds)

end Token.InLine

/-- **A statement is a line** when its last token ends lines, as one of those behind its arguments,
and no line ends in the tokens before. -/
structure Statement.IsLine (ends : Token → Prop) (s : Statement) : Prop where
  close : ∃ t ∈ s.lineEnd.getLast?, ends t
  inner : ∀ t ∈ s.tokens.dropLast, t.InLine

/-- **The number of lines that some tokens make**: one for each line terminator, and one more when
others are behind the last of them. -/
def lineCount (ts : List Token) : Nat :=
  ts.countP (·.kind == .lineTerm) + if ∃ t ∈ ts.getLast?, t.kind ≠ .lineTerm then 1 else 0

theorem lineCount_concat (ts : List Token) (t : Token) :
    lineCount (ts ++ [t]) = ts.countP (·.kind == .lineTerm) + 1 := by
  rw [lineCount, List.countP_append, List.countP_singleton, List.getLast?_concat]
  by_cases h : t.kind = .lineTerm
  · simp [h]
  · simp [h]

theorem mem_closeKinds_or_inLine {t : Token} (h : t.kind = .lineTerm ∨ t.InLine) :
    t.kind ∈ closeKinds ∨ t.InLine := by
  rcases h with hkind | h
  · exact .inl (hkind ▸ by decide)
  · exact .inr h

theorem kind_ne_error_of_inLine {t : Token} (h : t.kind = .lineTerm ∨ t.InLine) :
    t.kind ≠ .error := by
  intro herror
  rcases h with hkind | h
  · cases herror.symm.trans hkind
  · exact h.kind_notMem (herror ▸ by decide)

namespace LineRules

variable {r : LineRules}

/-- **The classes of tokens are apart**: those inside a line are of other kinds than those that end
it. -/
structure Apart (r : LineRules) : Prop where
  inside : ∀ t, r.separates t ∨ r.isWord t ∨ t.kind = .lineComment → t.kind ∉ closeKinds
  ends : ∀ t, r.endsLine t → t.kind = .lineTerm ∨ t.kind = .error
  lineTerm : ∀ t, t.kind = .lineTerm → r.endsLine t

/-- **The tokens of a program in lines.** Those that end no line wrap none that does, and only the
last can be an error. -/
structure InLines (r : LineRules) (ts : List Token) : Prop extends r.Reads ts where
  inside : ∀ t ∈ ts, t.kind ∈ closeKinds ∨ t.InLine
  input : ∀ t ∈ ts, t.kind ≠ .endOfInput
  error : ∀ t ∈ ts.dropLast, t.kind ≠ .error

/-! ## A line after it is finished -/

theorem Line.isLine {raw : Statement} (h : r.Line raw) (hr : r.Apart)
    (hraw : ∀ t ∈ raw.tokens, t.kind ∈ closeKinds ∨ t.InLine)
    (hfinish : ∀ i, (r.finish i).MadeFrom Token.InLine i) {ends : Token → Prop}
    (hends : ∀ t, r.endsLine t ∨ t = Token.endOfInput → ends t) :
    (r.finishStatement raw).IsLine ends := by
  obtain ⟨front, spaces, close, htokens, hend, hfront, hclose⟩ := h
  have hcloses : ends close := hends close (hclose.imp_right And.left)
  have hinner : ∀ t ∈ front, t.InLine := fun t ht =>
    (hraw t (htokens ▸ List.mem_append_left _ ht)).resolve_left (hr.inside t (hfront t ht))
  cases raw with
  | emptyLine ts =>
    refine ⟨⟨close, ?_, hcloses⟩, ?_⟩
    · show close ∈ ts.getLast?
      rw [show ts = spaces ++ [close] from hend, List.getLast?_concat]
      rfl
    · show ∀ t ∈ ts.dropLast, t.InLine
      rwa [show ts = front ++ [close] from htokens, List.dropLast_concat]
  | inst i =>
    -- the instruction ends like the one that it is made from, and its front stays inside the line
    have hafter : (r.finish i).after = spaces ++ [close] := (hfinish i).after.trans hend
    have hsplit : i.front ++ spaces = front := by
      apply List.append_cancel_right
      rw [List.append_assoc, ← htokens]
      exact congrArg (i.front ++ ·) hend.symm
    rw [← hsplit, List.forall_mem_append] at hinner
    refine ⟨⟨close, ?_, hcloses⟩, ?_⟩
    · show close ∈ (r.finish i).after.getLast?
      rw [hafter, List.getLast?_concat]
      rfl
    · show ∀ t ∈ (r.finish i).tokens.dropLast, t.InLine
      rw [Inst.tokens_eq_front, hafter, ← List.append_assoc, List.dropLast_concat]
      exact List.forall_mem_append.2 ⟨(hfinish i).front hinner.1, hinner.2⟩

/-! ## The number of lines -/

/-- The token ends a line or the input. -/
def closes (r : LineRules) (t : Token) : Bool := r.endsLine t || t.kind == .endOfInput

theorem Apart.closes_eq_false (hr : r.Apart) {t : Token} (h : t.kind ∉ closeKinds) :
    r.closes t = false := by
  rw [closes, Bool.or_eq_false_iff, Bool.eq_false_iff, beq_eq_false_iff_ne]
  constructor
  · intro hends
    rcases hr.ends t hends with hkind | hkind
    · exact h (hkind ▸ by decide)
    · exact h (hkind ▸ by decide)
  · intro hkind
    exact h (hkind ▸ by decide)

/-- **Of each line one token ends it**, the last. -/
theorem Line.countP_closes {s : Statement} (h : r.Line s) (hr : r.Apart) :
    s.tokens.countP r.closes = 1 := by
  obtain ⟨front, spaces, close, htokens, -, hfront, hclose⟩ := h
  have hnone : front.countP r.closes = 0 := by
    rw [List.countP_eq_zero]
    intro t ht
    rw [hr.closes_eq_false (hr.inside t (hfront t ht))]
    exact Bool.false_ne_true
  have hone : r.closes close := by
    rw [closes, Bool.or_eq_true]
    rcases hclose with hends | ⟨rfl, -⟩
    · exact .inl hends
    · exact .inr rfl
  rw [htokens, List.countP_append, hnone, List.countP_singleton, if_pos hone]

theorem countP_closes_lines (hr : r.Apart) {ss : List Statement} (h : ∀ s ∈ ss, r.Line s) :
    (ss.flatMap Statement.tokens).countP r.closes = ss.length := by
  induction ss with
  | nil => rfl
  | cons s ss ih =>
    obtain ⟨hs, hss⟩ := List.forall_mem_cons.1 h
    rw [List.flatMap_cons, List.countP_append, hs.countP_closes hr, ih hss, List.length_cons,
      Nat.add_comm]

theorem Line.eq_append {s : Statement} (h : r.Line s) (hr : r.Apart) :
    (∃ front close, s.tokens = front ++ [close] ∧ r.closes close ∧ close ≠ Token.endOfInput) ∨
      ∃ front last, s.tokens = front ++ [last] ++ [Token.endOfInput] ∧ r.closes last = false := by
  obtain ⟨front, spaces, close, htokens, -, hfront, hends | ⟨rfl, hne⟩⟩ := h
  · refine .inl ⟨front, close, htokens, by rw [closes, hends, Bool.true_or], ?_⟩
    rintro rfl
    rcases hr.ends _ hends with hkind | hkind <;> cases hkind
  · obtain ⟨front, last, rfl⟩ := (List.eq_nil_or_concat' front).resolve_left hne
    have hlast := hfront last (List.mem_append_right _ (List.mem_singleton_self _))
    exact .inr ⟨front, last, htokens, hr.closes_eq_false (hr.inside last hlast)⟩

/-- **The lines of a program** are as many as the tokens that end lines before its last token, and
one more. -/
theorem length_lines (hr : r.Apart) {ss : List Statement} (h : ∀ s ∈ ss, r.Line s)
    {init tail : List Token} {last : Token}
    (htokens : ss.flatMap Statement.tokens = init ++ [last] ++ tail)
    (htail : tail = [] ∨ tail = [Token.endOfInput])
    (hinput : ∀ t ∈ init ++ [last], t.kind ≠ .endOfInput) :
    ss.length = init.countP r.endsLine + 1 := by
  obtain ⟨hinit, hlast⟩ := List.forall_mem_append.1 hinput
  rw [List.forall_mem_singleton] at hlast
  have hcount : init.countP r.closes = init.countP r.endsLine := by
    refine List.countP_congr fun t ht => ?_
    rw [closes, beq_eq_false_iff_ne.2 (hinit t ht), Bool.or_false]
  -- the last line ends in the last token, or in the end of the input behind it
  have hend : ([last] ++ tail).countP r.closes = 1 := by
    obtain ⟨ss, s, rfl⟩ := (List.eq_nil_or_concat' ss).resolve_left
      (by rintro rfl; simp at htokens)
    have hs := h s (List.mem_append_right _ (List.mem_singleton_self s))
    rw [List.flatMap_append, List.flatMap_singleton] at htokens
    rcases hs.eq_append hr with ⟨front, close, hs, hcloses, hne⟩ | ⟨front, close, hs, hopen⟩
    · rw [hs, ← List.append_assoc] at htokens
      rcases htail with rfl | rfl
      · rw [List.append_nil] at htokens
        obtain rfl := List.singleton_inj.1 (List.append_inj' htokens rfl).2
        exact List.countP_singleton.trans (if_pos hcloses)
      · exact absurd (List.singleton_inj.1 (List.append_inj' htokens rfl).2) hne
    · rw [hs, ← List.append_assoc, ← List.append_assoc] at htokens
      rcases htail with rfl | rfl
      · rw [List.append_nil] at htokens
        obtain rfl := List.singleton_inj.1 (List.append_inj' htokens rfl).2
        exact absurd rfl hlast
      · obtain rfl := List.singleton_inj.1 (List.append_inj' (List.append_inj' htokens rfl).1 rfl).2
        have hinput : r.closes Token.endOfInput := Bool.or_true _
        rw [List.countP_append, List.countP_singleton, List.countP_singleton, hopen, hinput]
        rfl
  rw [← countP_closes_lines hr h, htokens, List.append_assoc, List.countP_append, hcount, hend]

/-- **A program is read line by line**, if each of its tokens is inside a line or ends one. -/
theorem readAll_lines (hr : r.Apart) (hfinish : ∀ i, (r.finish i).MadeFrom Token.InLine i)
    {ends : Token → Prop} (hends : ∀ t, r.endsLine t ∨ t = Token.endOfInput → ends t)
    {ts : List Token} (h : r.InLines ts) (u : ColumnUnit) :
    ∃ ss, r.reader.readAll (locate u {} ts) = .ok ss ∧ (∀ s ∈ ss.map (·.2), s.IsLine ends) ∧
      ss.length = lineCount ts := by
  have hreads : r.Reads (tokensOf (locate u {} ts)) := by
    rw [tokensOf_locate]
    exact h.toReads
  obtain ⟨ss, raws, tail, hall, hss, hraws, htokens, htail⟩ :=
    StatementReader.readAll_spec (keeps_lines r) hreads
  rw [tokensOf_locate] at htokens
  refine ⟨ss, hall, ?_, ?_⟩
  · rw [hss]
    intro s hs
    obtain ⟨raw, hraw, rfl⟩ := List.mem_map.1 hs
    refine (hraws raw hraw).2.isLine hr (fun t ht => ?_) hfinish hends
    have hmem : t ∈ ts ++ tail := htokens ▸ List.mem_flatMap.2 ⟨raw, hraw, ht⟩
    rcases List.mem_append.1 hmem with hmem | hmem
    · exact h.inside t hmem
    · rcases htail with rfl | rfl
      · cases hmem
      · obtain rfl := List.mem_singleton.1 hmem
        exact .inl (by decide)
  · have hlength : ss.length = raws.length := by simpa using congrArg List.length hss
    rcases List.eq_nil_or_concat' ts with rfl | ⟨init, last, rfl⟩
    · rw [locate, StatementReader.readAll] at hall
      cases hall
      rfl
    · have herror := h.error
      rw [List.dropLast_concat] at herror
      rw [hlength, length_lines hr (fun s hs => (hraws s hs).2) htokens htail h.input,
        lineCount_concat]
      congr 1
      refine List.countP_congr fun t ht => ⟨fun hends => ?_, fun hkind => ?_⟩
      · exact beq_iff_eq.2 ((hr.ends t hends).resolve_right (herror t ht))
      · exact hr.lineTerm t (beq_iff_eq.1 hkind)

end LineRules

end WhitespaceAsm

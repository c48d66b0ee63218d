import WhitespaceAsm.Proofs.Position
import WhitespaceAsm.Proofs.Spelling
import WhitespaceAsm.Proofs.Tree.LineReader

/-!
# Where statements start

A statement starts where one of its tokens does. Which one depends on the dialect: either the first,
or the one behind some tokens that lead the statement. What is read keeps its text, so that the
positions of all statements follow from the texts of those before.

* **`placeStatements`**: statements with the positions that they have behind a text;
  `map_snd_placeStatements`, `getElem?_placeStatements`;
* `StatementReader.Places`: how a reader places a statement;
  **`StatementReader.Places.readAll_eq`**: all statements of a program are placed;
* **`LineRules.places`**, `LineRules.readAll_eq_placeStatements`: lines.
-/

namespace WhitespaceAsm

/-! ## Tokens -/

theorem locate_append (u : ColumnUnit) (p : Pos) (ts us : List Token) :
    locate u p (ts ++ us) = locate u p ts ++ locate u (p.advance u (texts ts)) us := by
  induction ts generalizing p with
  | nil => rfl
  | cons t ts ih =>
    rw [List.cons_append, locate, ih, locate, texts_cons, Pos.advance_append, List.cons_append]

/-- **Tokens with the positions that they have** when the first of them is at `p`. -/
def LocatedFrom (u : ColumnUnit) (p : Pos) (ts : List Located) : Prop :=
  ts = locate u p (tokensOf ts)

theorem locatedFrom_locate (u : ColumnUnit) (p : Pos) (ts : List Token) :
    LocatedFrom u p (locate u p ts) := by
  rw [LocatedFrom, tokensOf_locate]

namespace LocatedFrom

variable {u : ColumnUnit} {p : Pos}

theorem of_append {ts us : List Located} (h : LocatedFrom u p (ts ++ us)) :
    LocatedFrom u (p.advance u (texts (tokensOf ts))) us := by
  rw [LocatedFrom, tokensOf_append, locate_append] at h
  have htokens := tokensOf_locate u p (tokensOf ts)
  have hlength := congrArg List.length htokens
  rw [tokensOf, tokensOf, List.length_map, List.length_map] at hlength
  exact (List.append_inj h hlength.symm).2

theorem start_head {t : Located} {ts : List Located} (h : LocatedFrom u p (t :: ts)) :
    t.start = p := by
  rw [LocatedFrom, tokensOf_cons, locate, List.cons.injEq] at h
  rw [h.1]

end LocatedFrom

theorem EndsInput.texts_eq {rest : List Located} {tail : List Token} (h : EndsInput rest tail) :
    texts tail = [] := by
  obtain rfl | ⟨rfl, -⟩ := h
  · rfl
  · rfl

/-! ## Statements -/

/-- **Statements with their positions**, the first token of them at `p`. Each starts behind the
tokens that lead it. -/
def placeStatements (u : ColumnUnit) (lead : Statement → List Token) (p : Pos) :
    List Statement → List (Pos × Statement)
  | [] => []
  | s :: ss =>
    (p.advance u (texts (lead s)), s)
      :: placeStatements u lead (p.advance u (texts s.tokens)) ss

theorem map_snd_placeStatements (u : ColumnUnit) (lead : Statement → List Token) (p : Pos)
    (ss : List Statement) : (placeStatements u lead p ss).map (·.2) = ss := by
  induction ss generalizing p with
  | nil => rfl
  | cons s ss ih => rw [placeStatements, List.map_cons, ih]

theorem getElem?_placeStatements (u : ColumnUnit) (lead : Statement → List Token) (p : Pos)
    {ss : List Statement} {k : ℕ} {s : Statement} (h : ss[k]? = some s) :
    (placeStatements u lead p ss)[k]?
      = some (p.advance u (texts ((ss.take k).flatMap Statement.tokens ++ lead s)), s) := by
  induction ss generalizing p k with
  | nil => cases h
  | cons first ss ih =>
    rw [placeStatements]
    cases k with
    | zero =>
      obtain rfl := Option.some.inj h
      rfl
    | succ k =>
      rw [List.getElem?_cons_succ] at h ⊢
      rw [ih _ h, ← Pos.advance_append, ← texts_append, ← List.append_assoc, List.take_succ_cons,
        List.flatMap_cons]

/-! ## Readers -/

namespace StatementReader

/-- **How a reader places a statement.** It starts at one of the tokens, with as much text before it
as that of the tokens that lead the statement, and what it leaves is what follows. -/
structure Places (r : StatementReader) (lead : Statement → List Token) : Prop where
  rest_isSuffix : ∀ {t ts p}, r.read t ts = .ok p → p.rest <:+ t :: ts
  start : ∀ {t ts p}, r.read t ts = .ok p → ∃ front x back,
    t :: ts = front ++ x :: back ∧ p.start = x.start ∧
      texts (tokensOf front) = texts (lead p.statement)

namespace Places

variable {r : StatementReader} {lead : Statement → List Token} {Ok : List Located → Prop}
  {Raw : Statement → Prop} {finish : Statement → Statement} {toks : List Token}
  (hplaces : r.Places lead) (hkeeps : r.Keeps Ok Raw finish)
  (hfinish : ∀ raw, Raw raw → (∀ t ∈ raw.tokens, t ∈ toks ∨ t = Token.endOfInput) →
    SameSpelling (finish raw).tokens raw.tokens)

include hplaces hkeeps hfinish

/-- **One statement is placed**, and what it leaves stands behind its text. -/
theorem read_spec {u : ColumnUnit} {p : Pos} {t : Located} {ts : List Located} (hts : Ok (t :: ts))
    (htoks : tokensOf (t :: ts) ⊆ toks) (hlocated : LocatedFrom u p (t :: ts)) :
    ∃ s rest, r.read t ts = .ok ⟨p.advance u (texts (lead s)), s, rest⟩ ∧ Ok rest ∧
      tokensOf rest ⊆ toks ∧ LocatedFrom u (p.advance u (texts s.tokens)) rest := by
  obtain ⟨start, raw, rest, tail, hread, hrest, hraw, htokens, hend⟩ := hkeeps t ts hts
  obtain ⟨taken, htaken⟩ := hplaces.rest_isSuffix hread
  obtain ⟨front, x, back, hfront, hstart, hlead⟩ := hplaces.start hread
  dsimp only at htaken hstart hlead
  rw [← htaken, tokensOf_append] at htoks
  obtain ⟨htakenToks, hrestToks⟩ := List.append_subset.1 htoks
  -- the statement has been read from the tokens before those that are left
  have hrawTokens : raw.tokens = tokensOf taken ++ tail := by
    rw [← htaken, tokensOf_append, List.append_assoc, ← hend.append_comm, ← List.append_assoc]
      at htokens
    exact List.append_cancel_right htokens
  have hmem : ∀ t ∈ raw.tokens, t ∈ toks ∨ t = Token.endOfInput := by
    intro t ht
    rw [hrawTokens, List.mem_append] at ht
    obtain ht | ht := ht
    · exact .inl (htakenToks ht)
    · obtain rfl | ⟨rfl, -⟩ := hend
      · cases ht
      · exact .inr (List.mem_singleton.1 ht)
  have htexts : texts (finish raw).tokens = texts (tokensOf taken) := by
    rw [(hfinish raw hraw hmem).texts_eq, hrawTokens, texts_append, hend.texts_eq, List.append_nil]
  have hstart : start = p.advance u (texts (lead (finish raw))) := by
    rw [hfront] at hlocated
    rw [hstart, hlocated.of_append.start_head, hlead]
  refine ⟨finish raw, rest, ?_, hrest, hrestToks, ?_⟩
  · rw [hread, hstart]
  · rw [← htaken] at hlocated
    rw [htexts]
    exact hlocated.of_append

/-- **All statements of a program are placed**, by induction over what is left. -/
theorem readAll_eq {u : ColumnUnit} {p : Pos} {ts : List Located} (hts : Ok ts)
    (htoks : tokensOf ts ⊆ toks) (hlocated : LocatedFrom u p ts) :
    ∃ ss, r.readAll ts = .ok (placeStatements u lead p ss) := by
  induction hn : ts.length using Nat.strong_induction_on generalizing p ts with
  | _ n ih =>
    cases ts with
    | nil => exact ⟨[], by rw [readAll]; rfl⟩
    | cons t ts =>
      obtain ⟨s, rest, hread, hrest, hrestToks, hrestLocated⟩ :=
        read_spec hplaces hkeeps hfinish hts htoks hlocated
      have hlt : rest.length < n := by
        rw [← hn, List.length_cons]
        exact Nat.lt_succ_of_le (r.rest_length_le hread)
      obtain ⟨ss, hss⟩ := ih rest.length hlt hrest hrestToks hrestLocated rfl
      refine ⟨s :: ss, ?_⟩
      rw [readAll_cons hread, hss]
      rfl

end Places

end StatementReader

/-! ## Lines -/

theorem readLineEnd_isSuffix {ends : Token → Bool} {ts rest : List Located} {line : List Token}
    (h : readLineEnd ends ts = .ok (line, rest)) : rest <:+ ts := by
  obtain ⟨-, hcomment⟩ := takeToken_spec (·.kind == .lineComment) ts
  unfold readLineEnd at h
  split at h
  next comment after heq =>
    rw [heq] at hcomment
    split at h
    · cases h
      exact hcomment
    · next t more =>
      split at h
      · cases h
        exact (List.suffix_cons t _).trans hcomment
      · cases h

namespace LineRules

variable {r : LineRules}

theorem readInst_isSuffix {before : List Token} {head : Token} {ts rest : List Located} {i : Inst}
    (h : r.readInst before head ts = .ok (i, rest)) : rest <:+ ts := by
  obtain ⟨-, hargs, -⟩ := readArgs_spec r.separates r.isWord [] ts
  unfold readInst at h
  dsimp only at h
  split at h
  · cases h
  · next hend =>
    cases h
    exact (readLineEnd_isSuffix hend).trans hargs

theorem readStatement_spec {t : Located} {ts : List Located} {p : ParsedStatement}
    (h : r.readStatement t ts = .ok p) : p.start = t.start ∧ p.rest <:+ t :: ts := by
  have hdrop := List.drop_suffix ((t :: ts).takeWhile (r.separates ·.token)).length (t :: ts)
  unfold readStatement at h
  dsimp only at h
  split at h
  · cases h
    exact ⟨rfl, List.nil_suffix⟩
  · next head more heq =>
    rw [heq] at hdrop
    split at h
    · split at h
      · cases h
      · next hread =>
        cases h
        exact ⟨rfl, (readInst_isSuffix hread).trans ((List.suffix_cons head more).trans hdrop)⟩
    · split at h
      · cases h
      · next hend =>
        cases h
        exact ⟨rfl, (readLineEnd_isSuffix hend).trans hdrop⟩

/-- **A line starts at its first token.** -/
theorem places (r : LineRules) : r.reader.Places fun _ => [] where
  rest_isSuffix h := (readStatement_spec h).2
  start {t ts _} h := ⟨[], t, ts, rfl, (readStatement_spec h).1, rfl⟩

/-- **A program is read line by line**, each line starting where the one before ends. -/
theorem readAll_eq_placeStatements {ts : List Token} (h : r.Reads ts)
    (hspelling : ∀ i, r.Raw (.inst i) → (∀ t ∈ i.tokens, t ∈ ts ∨ t = Token.endOfInput) →
      SameSpelling (r.finish i).tokens i.tokens) (u : ColumnUnit) :
    ∃ ss, r.reader.readAll (locate u {} ts) = .ok (placeStatements u (fun _ => []) {} ss) := by
  have htokens := tokensOf_locate u {} ts
  have hsubset : tokensOf (locate u {} ts) ⊆ ts := fun t ht => htokens ▸ ht
  rw [← htokens] at h
  refine (places r).readAll_eq (keeps r) (fun raw hraw hmem => ?_) h hsubset
    (locatedFrom_locate u {} ts)
  cases raw with
  | inst i => exact hspelling i hraw hmem
  | emptyLine ts => exact .refl _

end LineRules

end WhitespaceAsm

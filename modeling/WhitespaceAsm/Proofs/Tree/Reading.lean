import WhitespaceAsm.Proofs.Tree.LineReader
import WhitespaceAsm.Proofs.Tree.Resolve

/-!
# What the statements of a program owe to its tokens

* **`Reading`**: statements that are written as the tokens of a program, and whose instructions
  agree with the overloads of their mnemonics;
* `StatementReader.reading`, **`LineRules.reading`**: a reader that keeps the tokens reads such
  statements, if finishing a statement does not change how it is written and resolves it.
-/

namespace WhitespaceAsm

/-- **Statements that stand for the tokens of a program.** Only the end of the input may be added
behind the last of the tokens. -/
structure Reading (toks : List Token) (lookup? : Bytes → Option (List Signature))
    (ss : List Statement) : Prop where
  spelling : ∃ tail, SameSpelling (ss.flatMap Statement.tokens) (toks ++ tail) ∧
    (tail = [] ∨ tail = [Token.endOfInput])
  resolved : ∀ i, .inst i ∈ ss → i.head.unwrap.kind = .mnemonic →
    i.ResolvedBy (lookup? i.head.unwrap.text)

theorem sameSpelling_flatMap_map {finish : Statement → Statement} {raws : List Statement}
    (h : ∀ raw ∈ raws, SameSpelling (finish raw).tokens raw.tokens) :
    SameSpelling ((raws.map finish).flatMap Statement.tokens)
      (raws.flatMap Statement.tokens) := by
  induction raws with
  | nil => exact .refl _
  | cons raw raws ih =>
    obtain ⟨hraw, hraws⟩ := List.forall_mem_cons.1 h
    exact hraw.append (ih hraws)

/-- **A reader that keeps the tokens** reads statements that stand for them. -/
theorem StatementReader.reading {r : StatementReader} {Ok : List Located → Prop}
    {Raw : Statement → Prop} {finish : Statement → Statement} (h : r.Keeps Ok Raw finish)
    {ts : List Located} (hts : Ok ts) {lookup? : Bytes → Option (List Signature)}
    (hspelling : ∀ raw, Raw raw → (∀ t ∈ raw.tokens, t ∈ tokensOf ts ∨ t = Token.endOfInput) →
      SameSpelling (finish raw).tokens raw.tokens)
    (hresolved : ∀ raw, Raw raw → (∀ t ∈ raw.tokens, t ∈ tokensOf ts ∨ t = Token.endOfInput) →
      ∀ i, finish raw = .inst i → i.head.unwrap.kind = .mnemonic →
        i.ResolvedBy (lookup? i.head.unwrap.text)) :
    ∃ ss, r.readAll ts = .ok ss ∧ Reading (tokensOf ts) lookup? (ss.map (·.2)) := by
  obtain ⟨ss, raws, tail, hall, hss, hraws, htokens, htail⟩ := readAll_spec h hts
  have hmem : ∀ raw ∈ raws, ∀ t ∈ raw.tokens, t ∈ tokensOf ts ∨ t = Token.endOfInput := by
    intro raw hraw t ht
    have hall : t ∈ tokensOf ts ++ tail := by
      rw [← htokens]
      exact List.mem_flatMap.2 ⟨raw, hraw, ht⟩
    obtain ht | ht := List.mem_append.1 hall
    · exact .inl ht
    · obtain rfl | rfl := htail
      · cases ht
      · exact .inr (List.mem_singleton.1 ht)
  refine ⟨ss, hall, ⟨⟨tail, ?_, htail⟩, ?_⟩⟩
  · rw [hss, ← htokens]
    exact sameSpelling_flatMap_map fun raw hraw => hspelling raw (hraws raw hraw) (hmem raw hraw)
  · intro i hi
    rw [hss] at hi
    obtain ⟨raw, hraw, hfinish⟩ := List.mem_map.1 hi
    exact hresolved raw (hraws raw hraw) (hmem raw hraw) i hfinish

/-- **A dialect with one instruction a line** reads statements that stand for its tokens. -/
theorem LineRules.reading {r : LineRules} {ts : List Located} (h : r.Reads (tokensOf ts))
    {lookup? : Bytes → Option (List Signature)}
    (hspelling : ∀ i, r.Raw (.inst i) →
      (∀ t ∈ i.tokens, t ∈ tokensOf ts ∨ t = Token.endOfInput) →
      SameSpelling (r.finish i).tokens i.tokens)
    (hresolved : ∀ i, r.Raw (.inst i) →
      (∀ t ∈ i.tokens, t ∈ tokensOf ts ∨ t = Token.endOfInput) →
      (r.finish i).head.unwrap.kind = .mnemonic →
        (r.finish i).ResolvedBy (lookup? (r.finish i).head.unwrap.text)) :
    ∃ ss, r.reader.readAll ts = .ok ss ∧ Reading (tokensOf ts) lookup? (ss.map (·.2)) := by
  refine StatementReader.reading (keeps r) h ?_ ?_
  · intro raw hraw hmem
    cases raw with
    | inst i => exact hspelling i hraw hmem
    | emptyLine ts => exact .refl _
  · intro raw hraw hmem i hi
    cases raw with
    | inst j =>
      cases hi
      exact hresolved j hraw hmem
    | emptyLine ts => cases hi

end WhitespaceAsm

import WhitespaceAsm.Program
import WhitespaceAsm.Proofs.Burghard.OptionNester
import WhitespaceAsm.Proofs.Burghard.Parse
import WhitespaceAsm.Proofs.Lexicon
import WhitespaceAsm.Proofs.Palaiologos.Parse
import WhitespaceAsm.Proofs.Voliva.Parse

/-!
# Every program has a tree

* **`Dialect.parse_reading`**: every program has a tree, whose statements stand for its tokens;
  `Dialect.parse_source`, `Dialect.source_of_parse`: its text is the program;
  `Dialect.parse_leaves`: the leaves of the tree are written as the tokens of the program;
* **`Dialect.parse_lossless`**: parsing loses nothing;
* **`Dialect.parse_resolved`**: the instructions of the tree agree with the overloads.
-/

namespace WhitespaceAsm.Dialect

theorem statements_reading (d : Dialect) (src : Bytes) : ∃ ss, d.statements src = .ok ss ∧
    Reading (d.lex src) d.lexicon.lookup? (ss.map (·.2)) :=
  match d with
  | burghard => Burghard.statements_reading src
  | palaiologos => Palaiologos.statements_reading src
  | voliva => Voliva.statements_reading src

/-- **A tree has the statements that it is made of**, with or without blocks. -/
theorem statements_assemble (d : Dialect) (ss : List Statement) :
    (d.assemble ss).statements = ss := by
  unfold assemble
  rw [Node.statements, Node.statementsOption, Node.statements]
  cases d with
  | burghard => rw [Burghard.statementsList_nestOptions, Node.statementsList_map_statement]
  | palaiologos | voliva => exact Node.statementsList_map_statement ss

theorem parse_reading (d : Dialect) (src : Bytes) : ∃ tree, d.parse src = .ok tree ∧
    Reading (d.lex src) d.lexicon.lookup? tree.statements := by
  obtain ⟨ss, hss, hreading⟩ := d.statements_reading src
  refine ⟨d.assemble (ss.map (·.2)), ?_, ?_⟩
  · rw [parse, hss]
    rfl
  · rwa [statements_assemble]

theorem parse_source (d : Dialect) (src : Bytes) :
    ∃ tree, d.parse src = .ok tree ∧ tree.source = src := by
  obtain ⟨tree, hparse, ⟨tail, hsame, htail⟩, -⟩ := d.parse_reading src
  have htail : texts tail = [] := by
    obtain rfl | rfl := htail
    · rfl
    · rfl
  refine ⟨tree, hparse, ?_⟩
  rw [Node.source, Node.tokens, hsame.texts_eq, texts_append, htail, List.append_nil]
  exact d.lexicon.texts_lex src

theorem source_of_parse {d : Dialect} {src : Bytes} {tree : Node} (h : d.parse src = .ok tree) :
    tree.source = src := by
  obtain ⟨tree', hparse, hsource⟩ := d.parse_source src
  rwa [Except.ok.inj (h.symm.trans hparse)]

theorem parse_leaves (d : Dialect) (src : Bytes) : ∃ tree, d.parse src = .ok tree ∧
    ∃ leaves tail, tree.leaves = leaves ++ tail ∧
      leaves.map Token.text = (d.lex src).map Token.text ∧
      (tail = [] ∨ tail = [Token.endOfInput]) := by
  obtain ⟨tree, hparse, ⟨tail, hsame, htail⟩, -⟩ := d.parse_reading src
  have hraw : ∀ t ∈ d.lex src ++ tail, t.kind ≠ .spliced := by
    intro t ht
    rw [List.mem_append] at ht
    obtain ht | ht := ht
    · exact (Lexicon.isRaw_of_mem_lex ht).kind_ne_spliced
    · obtain rfl | rfl := htail
      · cases ht
      · cases List.mem_singleton.1 ht
        decide
  obtain ⟨leaves, rest, hleaves, hread, hrest⟩ := Node.leaves_of_sameSpelling hsame hraw
  refine ⟨tree, hparse, leaves, rest, hleaves, ?_, ?_⟩
  · have htexts := congrArg (List.map Prod.fst) hread
    rwa [List.map_map, List.map_map] at htexts
  · obtain rfl | rfl := htail
    · exact .inl (List.map_eq_nil_iff.1 hrest)
    · obtain ⟨t, rfl, ht⟩ := List.map_eq_singleton_iff.1 hrest
      exact .inr (by rw [Token.eq_endOfInput_of_shape ht])

/-- **Parsing loses nothing.** The text of the tree is the program, and its leaves are written as
the tokens of the program. -/
theorem parse_lossless (d : Dialect) (src : Bytes) : ∃ tree, d.parse src = .ok tree ∧
    tree.source = src ∧ ∃ leaves tail, tree.leaves = leaves ++ tail ∧
      leaves.map Token.text = (d.lex src).map Token.text ∧
      (tail = [] ∨ tail = [Token.endOfInput]) := by
  obtain ⟨tree, hparse, hleaves⟩ := d.parse_leaves src
  obtain ⟨tree', hparse', hsource⟩ := d.parse_source src
  obtain rfl := Except.ok.inj (hparse.symm.trans hparse')
  exact ⟨tree, hparse, hsource, hleaves⟩

/-- **Resolution is sound in every tree.** Whatever stands at the head of an instruction, if it is a
mnemonic then the opcode and both flags are those that its overloads ask for. -/
theorem parse_resolved (d : Dialect) (src : Bytes) : ∃ tree, d.parse src = .ok tree ∧
    ∀ i, .inst i ∈ tree.statements → i.head.unwrap.kind = .mnemonic →
      i.ResolvedBy (d.lexicon.lookup? i.head.unwrap.text) := by
  obtain ⟨tree, hparse, hreading⟩ := d.parse_reading src
  exact ⟨tree, hparse, hreading.resolved⟩

end WhitespaceAsm.Dialect

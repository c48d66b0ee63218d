import WhitespaceAsm.Proofs.Palaiologos.Lex

/-!
# Maximal munch

Nothing separates mnemonics. Wherever a mnemonic is read, it is the longest keyword that stands
there, and letters that are no mnemonic go on only as far as no keyword begins.

* **`IsKeyword`**: the table has the folding of a text, with some overloads;
* **`mnemonics_maximalMunch`**: every mnemonic of a program; `mnemonics_maximalMunch_adjacent`.
-/

namespace WhitespaceAsm.Palaiologos

/-! ## Keywords -/

/-- **The text is a keyword**: the table has an entry for its folding, with these overloads. -/
def IsKeyword (text : Bytes) (overloads : List Signature) : Prop :=
  (CaseFold.ascii.fold text, overloads) ∈ mnemonics.entries

theorem sound_mnemonics : mnemonics.Sound := ByteTrie.sound_ofList _ _

theorem mode_mnemonics : mnemonics.mode = .ascii := ByteTrie.mode_ofList _ _

theorem isKeyword_iff_value? {text : Bytes} {overloads : List Signature} :
    IsKeyword text overloads ↔ mnemonics.value? (CaseFold.ascii.fold text) = some overloads :=
  (sound_mnemonics.value?_eq_some_iff _ _).symm

theorem isKeyword_iff_get? {text : Bytes} {overloads : List Signature} :
    IsKeyword text overloads ↔ mnemonics.get? text = some overloads := by
  rw [isKeyword_iff_value?, ByteTrie.get?_eq, mode_mnemonics]

/-- **The first overload of a keyword** is an instruction. -/
theorem IsKeyword.exists_first {text : Bytes} {overloads : List Signature}
    (h : IsKeyword text overloads) :
    ∃ first others, overloads = first :: others ∧ first.opcode ≠ .invalid := by
  have hvalue := isKeyword_iff_value?.1 h
  obtain ⟨e, he, -, rfl⟩ := ByteTrie.value?_ofList hvalue
  obtain ⟨first, others, heq⟩ := List.exists_cons_of_ne_nil (mnemonics_keyword hvalue).2.2
  have hinvalid : e.2.head?.map (·.opcode) ≠ some .invalid := by
    clear h hvalue heq
    revert e
    decide
  rw [heq] at hinvalid
  exact ⟨first, others, heq, fun hop => hinvalid (congrArg some hop)⟩

/-- **The longest match** covers a keyword, and no keyword that starts the text is longer. -/
theorem longestMatch?_spec {s : Bytes} {m : ByteTrie.Match (List Signature)}
    (h : mnemonics.longestMatch? s = some m) :
    IsKeyword (s.take m.length) m.value ∧
      ∀ p, p <+: s → ∀ overloads, IsKeyword p overloads → p.length ≤ m.length := by
  refine ⟨isKeyword_iff_get?.2 (get?_take_longestMatch h), fun p hp overloads hkeyword => ?_⟩
  obtain ⟨found, hlongest, hmatch⟩ := sound_mnemonics.exists_isLongest s
  rw [hmatch] at h
  obtain ⟨⟨key, value⟩, rfl, rfl⟩ := Option.map_eq_some_iff.1 h
  obtain ⟨hkey, -, hlongest⟩ := hlongest
  rw [mode_mnemonics, CaseFold.fold_ascii] at hkey hlongest
  have hfold := CaseFold.fold_ascii p
  have hle := hlongest (p.map Ascii.toLower) (hp.map _)
    (by rw [← hfold, isKeyword_iff_value?.1 hkeyword]; rfl)
  have hlength : key.length ≤ s.length := hkey.length_le.trans_eq (List.length_map _)
  rw [List.length_map] at hle
  rwa [mode_mnemonics, CaseFold.sourceLength_ascii hlength]

/-- **There is a match** just where a keyword starts the text. -/
theorem isSome_longestMatch?_iff {s : Bytes} : (mnemonics.longestMatch? s).isSome ↔
    ∃ p overloads, p <+: s ∧ IsKeyword p overloads := by
  constructor
  · rw [Option.isSome_iff_exists]
    rintro ⟨m, hm⟩
    exact ⟨_, _, List.take_prefix _ s, (longestMatch?_spec hm).1⟩
  · rintro ⟨p, overloads, hp, hkeyword⟩
    rw [Option.isSome_iff_ne_none]
    intro hnone
    obtain ⟨found, hlongest, hmatch⟩ := sound_mnemonics.exists_isLongest s
    rw [hmatch, Option.map_eq_none_iff] at hnone
    subst hnone
    rw [mode_mnemonics, CaseFold.fold_ascii] at hlongest
    have hvalue := hlongest (p.map Ascii.toLower) (hp.map _)
    rw [← CaseFold.fold_ascii, isKeyword_iff_value?.1 hkeyword] at hvalue
    cases hvalue

/-! ## Tokens -/

/-- **A mnemonic** is the longest keyword, or letters where no keyword begins. -/
theorem next_eq_mnemonic {b : UInt8} {rest text : Bytes} {opcode : Opcode}
    (h : next b rest = .plain text (.mnemonic opcode)) :
    (∃ m, mnemonics.longestMatch? (b :: rest) = some m ∧ text = (b :: rest).take m.length ∧
      opcode = (m.value.head?.map (·.opcode)).getD .invalid) ∨
    (isMnemonicByte b ∧ mnemonics.longestMatch? (b :: rest) = none ∧
      text = b :: takeUntil endsInvalid rest ∧ opcode = .invalid) := by
  by_cases hb : isMnemonicByte b
  · rw [next, if_pos hb, readMnemonic] at h
    split at h
    · next m hm =>
      cases h
      exact .inl ⟨m, hm, rfl, rfl⟩
    · next hnone =>
      split at h
      · cases h
      · cases h
        exact .inr ⟨hb, hnone, rfl, rfl⟩
  · left
    revert h
    refine next_classes (motive := fun t => t = .plain text (.mnemonic opcode) → _) b rest
      ?_ ?_ ?_ ?_ ?_ ?_ ?_ ?_ ?_ ?_ ?_
    · intro m hm heq
      cases heq
      exact ⟨m, hm, rfl, rfl⟩
    · exact fun hb' => absurd hb' hb
    · exact fun _ _ _ => nofun
    · exact fun _ => nofun
    · exact fun _ => nofun
    · exact fun _ => nofun
    · exact fun _ => nofun
    · nofun
    · rintro p hp - heq
      cases heq
      revert hp
      simp
    · exact fun _ => nofun
    · nofun

theorem isMnemonicByte_iff {c : UInt8} :
    isMnemonicByte c ↔ Ascii.isLetter c ∨ c = Ascii.underscore := by
  rw [isMnemonicByte, Bool.or_eq_true, beq_iff_eq]

theorem endsInvalid_eq_false {s : Bytes} (h : endsInvalid s = false) :
    (∀ c, s.head? = some c → isMnemonicByte c) ∧ mnemonics.longestMatch? s = none := by
  rw [endsInvalid, Bool.or_eq_false_iff, Bool.not_eq_false', Option.isSome_eq_false_iff,
    Option.isNone_iff_eq_none] at h
  refine ⟨fun c hc => ?_, h.2⟩
  have hany := h.1
  rwa [hc, Option.any_some] at hany

/-- **Letters without a keyword**: none begins in them, and what follows is something else or begins
with one. -/
theorem unknown_spec {b : UInt8} {rest text more : Bytes} (hb : isMnemonicByte b)
    (hnone : mnemonics.longestMatch? (b :: rest) = none)
    (htext : text = b :: takeUntil endsInvalid rest) (hsplit : b :: rest = text ++ more) :
    (∀ c ∈ text, isMnemonicByte c) ∧
      (∀ y, y <:+ text → y ≠ [] → mnemonics.longestMatch? (y ++ more) = none) ∧
      (more = [] ∨ endsInvalid more) := by
  subst htext
  generalize hx : takeUntil endsInvalid rest = x at hsplit ⊢
  have hrest : rest = x ++ more := (List.cons.inj hsplit).2
  rw [hrest] at hx
  obtain ⟨hinside, hend⟩ := (takeUntil_append_eq_iff endsInvalid x more).1 hx
  refine ⟨List.forall_mem_cons.2 ⟨hb, ?_⟩, fun y hy hne => ?_, hend⟩
  · rw [← hx]
    exact forall_mem_takeUntil (fun c t hgoes => (endsInvalid_eq_false hgoes).1 c rfl) _
  · obtain rfl | hy := List.suffix_cons_iff.1 hy
    · rw [← hsplit]
      exact hnone
    · exact (endsInvalid_eq_false (hinside y hy hne)).2

/-- **Mnemonics are read by maximal munch.** With an opcode, a mnemonic is the longest keyword that
starts what is left of the source; without one, it is as short as can be. -/
theorem mnemonics_maximalMunch {src text : Bytes} {opcode : Opcode} {before after : List Token}
    (h : lex src = before ++ .plain text (.mnemonic opcode) :: after) :
    let rest := src.drop (texts before).length
    (opcode ≠ .invalid →
      (∃ first others, IsKeyword text (first :: others) ∧ opcode = first.opcode) ∧
        text <+: rest ∧
        ∀ p, p <+: rest → ∀ overloads, IsKeyword p overloads → p.length ≤ text.length) ∧
    (opcode = .invalid →
      text ≠ [] ∧ text <+: rest ∧
        (∀ c ∈ text, Ascii.isLetter c ∨ c = Ascii.underscore) ∧
        (∀ i < text.length, ∀ p, p <+: rest.drop i → ∀ overloads, ¬ IsKeyword p overloads) ∧
        (rest.drop text.length = [] ∨
          (∃ c more, rest.drop text.length = c :: more ∧
            ¬ (Ascii.isLetter c ∨ c = Ascii.underscore)) ∨
          ∃ p overloads, p <+: rest.drop text.length ∧ IsKeyword p overloads)) := by
  intro rest
  obtain ⟨b, s, hrest, hnext, hsplit⟩ := tokenize_eq_append_cons next_readsStart h
  change rest = b :: s at hrest
  rw [hrest]
  obtain ⟨m, hm, rfl, hopcode⟩ | ⟨hb, hnone, htext, hopcode⟩ := next_eq_mnemonic hnext
  · obtain ⟨hkeyword, hlongest⟩ := longestMatch?_spec hm
    obtain ⟨first, others, hvalue, hfirst⟩ := hkeyword.exists_first
    rw [hvalue] at hkeyword hopcode
    have hlength : ((b :: s).take m.length).length = m.length := by
      rw [List.length_take, Nat.min_eq_left (longestMatch_length_le hm)]
    refine ⟨fun _ => ⟨⟨first, others, hkeyword, hopcode⟩, List.take_prefix _ _, ?_⟩,
      fun hinvalid => absurd (hopcode.symm.trans hinvalid) hfirst⟩
    rwa [hlength]
  · obtain ⟨hletters, hinside, hend⟩ := unknown_spec hb hnone htext hsplit
    rw [Token.text] at hsplit
    generalize texts after = more at hsplit hinside hend
    refine ⟨fun hvalid => absurd hopcode hvalid, fun _ => ⟨?_, ?_, ?_, ?_, ?_⟩⟩
    · rw [htext]
      exact List.cons_ne_nil _ _
    · exact ⟨more, hsplit.symm⟩
    · exact fun c hc => isMnemonicByte_iff.1 (hletters c hc)
    · intro i hi p hp overloads hkeyword
      rw [hsplit, List.drop_append_of_le_length (Nat.le_of_lt hi)] at hp
      have hsome := isSome_longestMatch?_iff.2 ⟨p, overloads, hp, hkeyword⟩
      have hleft : text.drop i ≠ [] := List.drop_eq_nil_iff.not.2 (Nat.not_le.2 hi)
      rw [hinside _ (List.drop_suffix i text) hleft] at hsome
      cases hsome
    · rw [hsplit, List.drop_left]
      cases more with
      | nil => exact .inl rfl
      | cons c more =>
        by_cases hc : isMnemonicByte c
        · have hmatch := hend.resolve_left (List.cons_ne_nil c more)
          rw [endsInvalid, List.head?_cons, Option.any_some, hc] at hmatch
          exact .inr (.inr (isSome_longestMatch?_iff.1 hmatch))
        · exact .inr (.inl ⟨c, more, rfl, isMnemonicByte_iff.not.1 hc⟩)

/-- Letters without a keyword go on to the next one, which is not cut short. -/
theorem mnemonics_maximalMunch_adjacent :
    let unknown : Token := .plain (ascii "xy") (.mnemonic .invalid)
    let jump : Token := .plain (ascii "JZ") (.mnemonic .jz)
    lex (ascii "xyJZ") = [unknown, jump] ∧
      (∀ i < 2, ∀ p, p <+: (ascii "xyJZ").drop i → ∀ overloads, ¬ IsKeyword p overloads) ∧
      (∃ overloads, IsKeyword (ascii "J") overloads) ∧
      ∃ first others, IsKeyword (ascii "JZ") (first :: others) ∧ Opcode.jz = first.opcode := by
  intro unknown jump
  have hlex : lex (ascii "xyJZ") = [unknown, jump] := by decide +kernel
  have hunknown : lex (ascii "xyJZ") = [] ++ unknown :: [jump] := hlex
  have hjump : lex (ascii "xyJZ") = [unknown] ++ jump :: [] := hlex
  obtain ⟨-, -, -, hinside, -⟩ := (mnemonics_maximalMunch hunknown).2 rfl
  obtain ⟨hfirst, -, -⟩ := (mnemonics_maximalMunch hjump).1 (by decide)
  have hshorter : (mnemonics.get? (ascii "J")).isSome := by decide +kernel
  obtain ⟨overloads, hget⟩ := Option.isSome_iff_exists.1 hshorter
  exact ⟨hlex, hinside, ⟨overloads, isKeyword_iff_get?.2 hget⟩, hfirst⟩

end WhitespaceAsm.Palaiologos

import WhitespaceAsm.Proofs.Spelling

/-!
# Resolved instructions

* `Inst.Selects`, **`Inst.ResolvedBy`**: an instruction agrees with the overloads of its head;
* `Inst.resolve_frame`: what resolution changes; `Inst.resolve_of_select_some`,
  `Inst.resolve_of_select_none`: and how;
* `Inst.TypedFrom`, `Inst.TypedFrom.sameSpelling`: an instruction with the arguments typed;
* **`Inst.TypedFrom.resolvedBy`**: resolution is sound.
-/

namespace WhitespaceAsm

theorem Signature.select?_eq_find? (overloads : List Signature) (count : Nat) :
    select? overloads count = overloads.find? fun s => s.args.length == count :=
  List.find?_eq_bind_findIdx?_getElem?.symm

theorem Signature.of_select? {overloads : List Signature} {count : Nat} {s : Signature}
    (h : select? overloads count = some s) : s ∈ overloads ∧ s.args.length = count := by
  rw [select?_eq_find?] at h
  exact ⟨List.mem_of_find?_eq_some h, by simpa using List.find?_some h⟩

theorem Signature.isSome_select? (overloads : List Signature) (count : Nat) :
    (select? overloads count).isSome ↔ ∃ s ∈ overloads, s.args.length = count := by
  rw [select?_eq_find?]
  simp [List.find?_isSome]

namespace Inst

/-- **An instruction agrees with the overloads of its head.** It has the opcode of the first
overload with as many arguments, or of the first of all, and its arguments are of the right kinds
when they are those of this overload. -/
structure Selects (i : Inst) (overloads : List Signature) : Prop where
  validArity : i.validArity ↔ ∃ s ∈ overloads, s.args.length = i.args.length
  opcode : some i.opcode
    = ((Signature.select? overloads i.args.length).or overloads.head?).map Signature.opcode
  validTypes : i.validTypes ↔ i.validArity ∧
    ∃ s, Signature.select? overloads i.args.length = some s ∧ i.typesMatch s

/-- **An instruction agrees with what is known of its head.** An unknown mnemonic has no opcode, and
nothing is wrong with its arguments. -/
structure ResolvedBy (i : Inst) (overloads : Option (List Signature)) : Prop where
  unknown : overloads = none → i.opcode = .invalid ∧ i.validArity ∧ i.validTypes
  known : ∀ signatures, overloads = some signatures → i.Selects signatures

theorem selects_of_select_some {i : Inst} {overloads : List Signature} {s : Signature}
    (hselect : Signature.select? overloads i.args.length = some s) (harity : i.validArity)
    (hopcode : i.opcode = s.opcode) (htypes : i.validTypes = i.typesMatch s) :
    i.Selects overloads := by
  have hsome := Signature.isSome_select? overloads i.args.length
  rw [hselect] at hsome
  refine ⟨by simpa [harity] using hsome, ?_, ?_⟩
  · simp [hselect, hopcode]
  · simp [hselect, harity, htypes]

theorem selects_of_select_none {i : Inst} {first : Signature} {others : List Signature}
    (hselect : Signature.select? (first :: others) i.args.length = none)
    (harity : i.validArity = false) (hopcode : i.opcode = first.opcode)
    (htypes : i.validTypes = false) : i.Selects (first :: others) := by
  have hsome := Signature.isSome_select? (first :: others) i.args.length
  rw [hselect] at hsome
  refine ⟨by simpa [harity] using hsome, ?_, ?_⟩
  · simp [hselect, hopcode]
  · simp [hselect, htypes]

/-! ## Resolution -/

theorem resolve_of_select_some {i : Inst} {overloads : List Signature} {s : Signature}
    (h : Signature.select? overloads i.args.length = some s) :
    i.resolve (some overloads)
      = { i with head := i.head.setOpcode s.opcode, validArity := true, validTypes := true } := by
  cases overloads with
  | nil => cases h
  | cons first others => rw [resolve, h]

theorem resolve_of_select_none {i : Inst} {first : Signature} {others : List Signature}
    (h : Signature.select? (first :: others) i.args.length = none) :
    i.resolve (some (first :: others))
      = { i with
          head := i.head.setOpcode first.opcode, validArity := false, validTypes := false } := by
  rw [resolve, h]

/-- **Resolution changes the flags and the opcode of the head** and nothing else. -/
theorem resolve_frame (i : Inst) (overloads : Option (List Signature)) :
    (i.resolve overloads).before = i.before ∧ (i.resolve overloads).args = i.args ∧
      (i.resolve overloads).after = i.after ∧
      ∃ opcode, (i.resolve overloads).head = i.head.setOpcode opcode ∨
        (i.resolve overloads).head = i.head := by
  unfold resolve
  split
  · exact ⟨rfl, rfl, rfl, .invalid, .inr rfl⟩
  · exact ⟨rfl, rfl, rfl, .invalid, .inr rfl⟩
  · split
    · exact ⟨rfl, rfl, rfl, _, .inl rfl⟩
    · exact ⟨rfl, rfl, rfl, _, .inl rfl⟩

theorem spelling_head_resolve (i : Inst) (overloads : Option (List Signature)) :
    (i.resolve overloads).head.spelling = i.head.spelling := by
  obtain ⟨-, -, -, opcode, h | h⟩ := resolve_frame i overloads
  · rw [h, Token.spelling_setOpcode]
  · rw [h]

theorem kind_head_resolve (i : Inst) (overloads : Option (List Signature)) :
    (i.resolve overloads).head.kind = i.head.kind := by
  obtain ⟨-, -, -, opcode, h | h⟩ := resolve_frame i overloads
  · rw [h, Token.kind_setOpcode]
  · rw [h]

theorem unwrap_text_resolve (i : Inst) (overloads : Option (List Signature)) :
    (i.resolve overloads).head.unwrap.text = i.head.unwrap.text := by
  obtain ⟨-, -, -, opcode, h | h⟩ := resolve_frame i overloads
  · rw [h, Token.unwrap_text_setOpcode]
  · rw [h]

theorem opcode_of_setOpcode {i : Inst} {t : Token} {opcode old : Opcode}
    (h : t.unwrap.payload? = some (.mnemonic old)) (hhead : i.head = t.setOpcode opcode) :
    i.opcode = opcode := by
  rw [Inst.opcode, hhead, Token.setOpcode, h]
  dsimp only
  rw [Token.unwrap_retype]
  rfl

/-- **How an instruction `j` comes from `i`**: the head and the arity are those of the resolution of
`i`, the arguments may have got other payloads, and they have been compared with the overload that
has been selected. -/
structure TypedFrom (j i : Inst) (overloads : Option (List Signature)) : Prop where
  before : j.before = i.before
  head : j.head = (i.resolve overloads).head
  length : j.args.length = i.args.length
  spelling : (j.args.flatMap Arg.tokens).map Token.spelling
    = (i.args.flatMap Arg.tokens).map Token.spelling
  after : j.after = i.after
  validArity : j.validArity = (i.resolve overloads).validArity
  validTypes_some : ∀ s, Signature.select? (overloads.getD []) i.args.length = some s →
    j.validTypes = j.typesMatch s
  validTypes_none : Signature.select? (overloads.getD []) i.args.length = none →
    j.validTypes = (i.resolve overloads).validTypes

theorem typedFrom_resolve {i : Inst} {overloads : Option (List Signature)} (args : List Arg)
    (validTypes : Bool) (hlength : args.length = i.args.length)
    (hspelling : (args.flatMap Arg.tokens).map Token.spelling
      = (i.args.flatMap Arg.tokens).map Token.spelling)
    (hsome : ∀ s, Signature.select? (overloads.getD []) i.args.length = some s →
      validTypes = typesMatch { i.resolve overloads with args, validTypes } s)
    (hnone : Signature.select? (overloads.getD []) i.args.length = none →
      validTypes = (i.resolve overloads).validTypes) :
    TypedFrom { i.resolve overloads with args, validTypes } i overloads :=
  have hframe := resolve_frame i overloads
  { before := hframe.1
    head := rfl
    length := hlength
    spelling := hspelling
    after := hframe.2.2.1
    validArity := rfl
    validTypes_some := hsome
    validTypes_none := hnone }

theorem typedFrom_resolve_of_select_some {i : Inst} {overloads : Option (List Signature)}
    {s : Signature} (hselect : Signature.select? (overloads.getD []) i.args.length = some s)
    (args : List Arg) (validTypes : Bool) (hlength : args.length = i.args.length)
    (hspelling : (args.flatMap Arg.tokens).map Token.spelling
      = (i.args.flatMap Arg.tokens).map Token.spelling)
    (htypes : validTypes = typesMatch { i.resolve overloads with args, validTypes } s) :
    TypedFrom { i.resolve overloads with args, validTypes } i overloads := by
  refine typedFrom_resolve args validTypes hlength hspelling (fun s' hs' => ?_) (fun hnone => ?_)
  · obtain rfl : s = s' := Option.some.inj (hselect.symm.trans hs')
    exact htypes
  · cases hselect.symm.trans hnone

theorem typedFrom_resolve_of_select_none {i : Inst} {overloads : Option (List Signature)}
    (h : Signature.select? (overloads.getD []) i.args.length = none) :
    (i.resolve overloads).TypedFrom i overloads := by
  obtain ⟨-, hargs, -, -⟩ := resolve_frame i overloads
  refine typedFrom_resolve (i.resolve overloads).args _ (by rw [hargs]) (by rw [hargs])
    (fun s hs => ?_) (fun _ => rfl)
  rw [h] at hs
  cases hs

namespace TypedFrom

variable {i j : Inst} {overloads : Option (List Signature)} (h : j.TypedFrom i overloads)

include h

theorem sameSpelling : SameSpelling j.tokens i.tokens :=
  Inst.sameSpelling (by rw [h.before]) (by rw [h.head, spelling_head_resolve]) h.spelling
    (by rw [h.after])

theorem unwrap_text : j.head.unwrap.text = i.head.unwrap.text := by
  rw [h.head, unwrap_text_resolve]

/-- **Resolution is sound.** -/
theorem resolvedBy {old : Opcode} (hold : i.head.unwrap.payload? = some (.mnemonic old))
    (hnone : overloads = none → old = .invalid) (hne : overloads ≠ some []) :
    j.ResolvedBy overloads := by
  obtain ⟨-, hhead, hlength, -, -, harity, hsome, hrest⟩ := h
  refine ⟨?_, ?_⟩
  · rintro rfl
    refine ⟨?_, harity, hrest rfl⟩
    have hpayload : j.head.unwrap.payload? = some (.mnemonic old) := by
      rw [hhead]
      exact hold
    rw [Inst.opcode, hpayload]
    exact hnone rfl
  · rintro signatures rfl
    rw [Option.getD_some] at hsome hrest
    cases hselect : Signature.select? signatures i.args.length with
    | some s =>
      rw [resolve_of_select_some hselect] at hhead harity
      refine selects_of_select_some ?_ harity (opcode_of_setOpcode hold hhead) (hsome s hselect)
      rw [hlength, hselect]
    | none =>
      cases signatures with
      | nil => exact absurd rfl hne
      | cons first others =>
        rw [resolve_of_select_none hselect] at hhead harity hrest
        refine selects_of_select_none ?_ harity (opcode_of_setOpcode hold hhead) (hrest hselect)
        rw [hlength, hselect]

end TypedFrom

end Inst

end WhitespaceAsm

import WhitespaceAsm.Proofs.Numeral.Body

/-!
# The grammar of numerals with a sign in front

Outside the grammar of Haskell a numeral is an unsigned one, or one with a sign in front. Such a
literal is read without errors when it is written like that and its value lies within the bounds.

* **`Signed`**: the literals that a grammar has, with their values;
* `Framing.ofLiteral_eq_ofSign`, **`signed_iff`**: the framing of such a literal; `Signed.lt`,
  `signed_of_parse`: its bytes, and how it is found;
* **`parse?_signed`**: the literals that are read without errors.
-/

namespace WhitespaceAsm.Numeral

/-- **A numeral with at most one sign** under a grammar, with its value. A plus has to be among the
signs of the grammar. -/
inductive Signed (g : Grammar) : Bytes → Int → Prop
  | unsigned {body : Bytes} {n : Nat} (h : Body g body n) : Signed g body n
  | minus {body : Bytes} {n : Nat} (h : Body g body n) : Signed g (Ascii.minus :: body) (-n)
  | plus {body : Bytes} {n : Nat} (hsigns : g.signs = .plusMinus) (h : Body g body n) :
    Signed g (Ascii.plus :: body) n

theorem Framing.ofLiteral_eq_ofSign {signs : SignStyle} (hsigns : signs ≠ .haskell)
    (literal : Bytes) : ofLiteral signs literal = ofSign signs literal := by
  cases signs with
  | minus => rfl
  | plusMinus => rfl
  | haskell => exact absurd rfl hsigns

theorem not_body_nil {g : Grammar} {n : Nat} : ¬ Body g [] n := fun h => h.solid.1 rfl

/-- **A numeral with at most one sign** is one whose framing has no errors, around a body of the
grammar. -/
theorem signed_iff {g : Grammar} (hsigns : g.signs ≠ .haskell) {literal : Bytes} {value : Int} :
    let f := Framing.ofLiteral g.signs literal
    Signed g literal value ↔
      f.errors = ∅ ∧ ∃ magnitude, Body g f.body magnitude ∧ f.sign.apply magnitude = value := by
  intro f
  constructor
  · intro h
    cases h with
    | @unsigned _ n h =>
      have hf : f = _ := @Framing.ofLiteral_sign _ .none _ h.solid nofun
      exact hf ▸ ⟨rfl, n, h, rfl⟩
    | @minus body n h =>
      have hf : f = _ := @Framing.ofLiteral_sign _ .minus _ h.solid nofun
      exact hf ▸ ⟨rfl, n, h, rfl⟩
    | @plus body n hplus h =>
      have hf : f = _ := @Framing.ofLiteral_sign _ .plus _ h.solid fun _ => hplus
      exact hf ▸ ⟨rfl, n, h, rfl⟩
  · have hf : f = Framing.ofSign g.signs literal := Framing.ofLiteral_eq_ofSign hsigns literal
    rw [hf]
    rintro ⟨herrors, magnitude, h, rfl⟩
    cases literal with
    | nil => exact absurd h not_body_nil
    | cons b rest =>
      rw [Framing.ofSign] at herrors h ⊢
      split at h
      · next hb =>
        subst hb
        exact .minus h
      · next hminus =>
        rw [if_neg hminus] at herrors ⊢
        split at h
        · next hb =>
          subst hb
          rw [if_pos rfl] at herrors ⊢
          exact .plus (not_not.1 (flagIf_eq_empty_iff.1 herrors)) h
        · next hplus =>
          rw [if_neg hplus]
          exact .unsigned h

theorem Signed.lt {g : Grammar} {literal : Bytes} {value : Int} (h : Signed g literal value) :
    ∀ b ∈ literal, b < 0x80 := by
  have hbody : ∀ {body : Bytes} {n : Nat}, Body g body n → ∀ b ∈ body, b < 0x80 :=
    fun h b hb => Ascii.lt_of_isIdentifier (h.solid.2 b hb)
  cases h with
  | unsigned h => exact hbody h
  | minus h => exact List.forall_mem_cons.2 ⟨by decide, hbody h⟩
  | plus _ h => exact List.forall_mem_cons.2 ⟨by decide, hbody h⟩

theorem signed_of_parse {g : Grammar} (hsigns : g.signs ≠ .haskell) (hsep : g.separators = false)
    {literal : Bytes} (h : (parse g literal).errors = ∅) :
    Signed g literal (parse g literal).value := by
  obtain ⟨n, hparse, hn⟩ := exists_parse?_eq_of_body hsep literal
  rw [parse_of_parse? hparse] at h ⊢
  obtain ⟨hframing, magnitude, hbody, hvalue, -⟩ := (hn n.value).1 ⟨h, rfl⟩
  exact (signed_iff hsigns).2 ⟨hframing, magnitude, hbody, hvalue⟩

theorem Grammar.inRange_iff {g : Grammar} {value : Int} :
    g.inRange value ↔ (∀ m, g.min = some m → m ≤ value) ∧ ∀ m, g.max = some m → value ≤ m := by
  rw [inRange, Bool.and_eq_true, Option.all_eq_true, Option.all_eq_true]
  simp only [decide_eq_true_eq]

/-- **A literal is read without errors** under a grammar without separators, when it is one of its
numerals with at most one sign and the value lies within the bounds. -/
theorem parse?_signed {g : Grammar} (hsigns : g.signs ≠ .haskell) (hsep : g.separators = false)
    (literal : Bytes) :
    ∃ n, parse? g literal = .ok n ∧ ∀ value,
      n.errors = ∅ ∧ n.value = value ↔
        Signed g literal value ∧
          (∀ m, g.min = some m → m ≤ value) ∧ (∀ m, g.max = some m → value ≤ m) := by
  obtain ⟨n, hparse, hn⟩ := exists_parse?_eq_of_body hsep literal
  refine ⟨n, hparse, fun value => (hn value).trans ?_⟩
  rw [← Grammar.inRange_iff]
  refine Iff.trans ?_ (and_congr_left' (signed_iff hsigns).symm)
  simp only [← and_assoc, exists_and_right]

/-- A hexadecimal numeral with a minus, a zero in front of its letters and a suffix. -/
theorem parse?_signed_palaiologos :
    Signed .palaiologos (ascii "-0FFh") (-255) ∧
      ∃ n, parse? .palaiologos (ascii "-0FFh") = .ok n ∧ n.errors = ∅ ∧ n.value = -255 := by
  have hbody : Body .palaiologos (ascii "0FF" ++ BaseStyle.hexSuffixLower.after) 255 :=
    .withSuffix (by decide) (by decide) (fun t => by cases t <;> decide) (by decide +kernel)
      ⟨by decide, by decide +kernel, by decide⟩
  obtain ⟨n, hparse, hn⟩ :=
    parse?_signed (g := .palaiologos) (by decide) (by decide) (ascii "-0FFh")
  have hsigned : Signed .palaiologos (ascii "-0FFh") (-255) := .minus hbody
  refine ⟨hsigned, n, hparse, (hn (-255)).2 ⟨hsigned, ?_, ?_⟩⟩
  · rintro m ⟨⟩
    decide
  · rintro m ⟨⟩
    decide

end WhitespaceAsm.Numeral

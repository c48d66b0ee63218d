import WhitespaceAsm.Burghard.Splice
import WhitespaceAsm.Proofs.Spelling

/-!
# Putting words together

A word takes the words that only block comments separate from it. It keeps them all as its parts, so
that neither the leaves nor the text of an instruction change.

* **`StandsForWord`**: a token that a word, a quoted word or a spliced word is;
* **`spliceArgs_spec`**: the words of an instruction put together.
-/

namespace WhitespaceAsm.Burghard

/-- **A token that stands for a word**, through any number of wrappers. -/
def StandsForWord (t : Token) : Prop := ∃ text errors, t.unwrap = .plain text (.word errors)

theorem StandsForWord.stands {t : Token} (h : StandsForWord t) : t.Stands := by
  obtain ⟨text, errors, h⟩ := h
  exact ⟨.word errors, by rw [h]; rfl, by simp [Payload.kind]⟩

theorem StandsForWord.joinWord {lhs rhs : Token} (h : StandsForWord lhs) :
    StandsForWord (joinWord lhs rhs) := by
  unfold Burghard.joinWord
  split
  · exact ⟨_, _, rfl⟩
  · exact h

theorem eq_plain_of_kind {t : Token} (h : t.kind = .word) :
    ∃ text errors, t = .plain text (.word errors) := by
  cases t with
  | plain text p =>
    cases p with
    | word errors => exact ⟨text, errors, rfl⟩
    | _ => cases h
  | quoted text inner quotes terminated => cases h
  | spliced text parts word => cases h

theorem shouldSplice_iff {lhs rhs : Token} {between : List Token} :
    shouldSplice lhs between rhs ↔ (∀ c ∈ between, c.kind = .blockComment) ∧
      (lhs.kind = .word ∨ lhs.kind = .spliced) ∧ rhs.kind = .word := by
  simp only [shouldSplice, Bool.and_eq_true, Bool.or_eq_true, beq_iff_eq, List.all_eq_true,
    and_assoc]

theorem leaves_splice (lhs rhs : Token) (between : List Token) :
    (splice lhs between rhs).leaves = lhs.leaves ++ between ++ [rhs] := by
  cases lhs <;> rfl

theorem text_splice (lhs rhs : Token) (between : List Token) :
    (splice lhs between rhs).text = lhs.text ++ texts between ++ rhs.text := by
  cases lhs <;> rfl

theorem standsForWord_splice {lhs : Token} (h : StandsForWord lhs) (rhs : Token)
    (between : List Token) : StandsForWord (splice lhs between rhs) := by
  cases lhs with
  | plain text p => exact h.joinWord
  | quoted text inner quotes terminated => exact h.joinWord
  | spliced text parts word =>
    cases word with
    | none =>
      obtain ⟨text', errors, h⟩ := h
      cases h
    | some word =>
      have hword : StandsForWord word := h
      exact hword.joinWord

theorem splice_sameSpelling (lhs : Token) {rhs : Token} {between : List Token}
    (hbetween : ∀ t ∈ between, t.kind ≠ .spliced) (hrhs : rhs.kind ≠ .spliced) :
    SameSpelling [splice lhs between rhs] (lhs :: (between ++ [rhs])) := by
  constructor
  · rw [shapes_cons, leaves_splice, shapes_cons, shapes_append, shapes_eq_map hbetween, shapes_cons,
      Token.leaves_eq hrhs]
    simp
  · rw [texts_cons, text_splice]
    simp

theorem spliceArgs_of_shouldSplice {lhs token : Token} {sep : List Token}
    (h : shouldSplice lhs sep token) (args : List Arg) :
    spliceArgs lhs (⟨sep, token⟩ :: args) = spliceArgs (splice lhs sep token) args := by
  rw [spliceArgs, if_pos h]

theorem spliceArgs_of_not_shouldSplice {lhs token : Token} {sep : List Token}
    (h : ¬ shouldSplice lhs sep token) (args : List Arg) :
    spliceArgs lhs (⟨sep, token⟩ :: args)
      = (lhs, ⟨sep, (spliceArgs token args).1⟩ :: (spliceArgs token args).2) := by
  rw [spliceArgs, if_neg h]

/-- **Putting the words of an instruction together** keeps what is written, and leaves words. -/
theorem spliceArgs_spec {lhs : Token} (hlhs : StandsForWord lhs) {args : List Arg}
    (hargs : ∀ a ∈ args, StandsForWord a.token)
    (hraw : ∀ t ∈ args.flatMap Arg.tokens, t.kind ≠ .spliced) :
    SameSpelling ((spliceArgs lhs args).1 :: (spliceArgs lhs args).2.flatMap Arg.tokens)
        (lhs :: args.flatMap Arg.tokens) ∧
      StandsForWord (spliceArgs lhs args).1 ∧
      ∀ a ∈ (spliceArgs lhs args).2, StandsForWord a.token := by
  induction args generalizing lhs with
  | nil => exact ⟨.refl _, hlhs, hargs⟩
  | cons a args ih =>
    obtain ⟨ha, hargs⟩ := List.forall_mem_cons.1 hargs
    rw [List.flatMap_cons] at hraw
    have hrest : ∀ t ∈ args.flatMap Arg.tokens, t.kind ≠ .spliced :=
      fun t ht => hraw t (List.mem_append_right _ ht)
    have htokens : lhs :: (a :: args).flatMap Arg.tokens
        = (lhs :: (a.sep ++ [a.token])) ++ args.flatMap Arg.tokens := rfl
    rw [htokens]
    by_cases hsplice : shouldSplice lhs a.sep a.token
    · have hparts : SameSpelling [splice lhs a.sep a.token] (lhs :: (a.sep ++ [a.token])) := by
        refine splice_sameSpelling lhs (fun t ht => hraw t ?_) (hraw a.token ?_)
        · exact List.mem_append_left _ (List.mem_append_left _ ht)
        · exact List.mem_append_left _ (List.mem_append_right _ List.mem_cons_self)
      obtain ⟨hspelling, hhead, hwords⟩ := ih (standsForWord_splice hlhs a.token a.sep) hargs hrest
      rw [spliceArgs, if_pos hsplice]
      exact ⟨hspelling.trans (hparts.append (.refl _)), hhead, hwords⟩
    · obtain ⟨hspelling, hhead, hwords⟩ := ih ha hargs hrest
      rw [spliceArgs, if_neg hsplice]
      refine ⟨?_, hlhs, List.forall_mem_cons.2 ⟨hhead, hwords⟩⟩
      have hmore := (SameSpelling.refl (lhs :: a.sep)).append hspelling
      simpa [Arg.tokens] using hmore

end WhitespaceAsm.Burghard

import WhitespaceAsm.MnemonicTable

/-!
# What a mnemonic table holds

* `MnemonicTable.mem_entries_ofList`: the entries of a table are the mnemonics that have been put
  in, folded;
* **`MnemonicTable.lookup?_ofList`**: the overloads that are found are those of a mnemonic with the
  same folding.
-/

namespace WhitespaceAsm.MnemonicTable

theorem add_eq_ok {t t' : MnemonicTable} {keyword : Bytes} {overloads : List Signature}
    (h : t.add keyword overloads = .ok t') :
    t'.mode = t.mode ∧ t'.entries = t.entries ++ [(t.mode.fold keyword, overloads)] := by
  unfold add at h
  split at h
  · cases h; exact ⟨rfl, rfl⟩
  · cases h

theorem mem_entries_foldl {mode : CaseFold} {entries : List (Bytes × List Signature)}
    {t : MnemonicTable} (hmode : t.mode = mode) {e : Bytes × List Signature}
    (h : e ∈ (entries.foldl (fun t e => (t.add e.1 e.2).toOption.getD t) t).entries) :
    e ∈ t.entries ∨ ∃ e' ∈ entries, (mode.fold e'.1, e'.2) = e := by
  induction entries generalizing t with
  | nil => exact .inl h
  | cons first entries ih =>
    rw [List.foldl_cons] at h
    cases hadd : t.add first.1 first.2 with
    | error _ =>
      rw [hadd] at h
      obtain h | ⟨e', he', heq⟩ := ih hmode h
      · exact .inl h
      · exact .inr ⟨e', List.mem_cons_of_mem _ he', heq⟩
    | ok t' =>
      rw [hadd] at h
      obtain ⟨hmode', hentries⟩ := add_eq_ok hadd
      obtain h | ⟨e', he', heq⟩ := ih (hmode'.trans hmode) h
      · rw [hentries, List.mem_append, List.mem_singleton, hmode] at h
        obtain h | rfl := h
        · exact .inl h
        · exact .inr ⟨first, List.mem_cons_self, rfl⟩
      · exact .inr ⟨e', List.mem_cons_of_mem _ he', heq⟩

theorem mem_entries_ofList {mode : CaseFold} {entries : List (Bytes × List Signature)}
    {e : Bytes × List Signature} (h : e ∈ (ofList mode entries).entries) :
    ∃ e' ∈ entries, (mode.fold e'.1, e'.2) = e := by
  obtain h | h := mem_entries_foldl rfl h
  · cases h
  · exact h

/-- **The overloads that are found** are those of a mnemonic with the same folding. -/
theorem lookup?_ofList {mode : CaseFold} {entries : List (Bytes × List Signature)} {text : Bytes}
    {overloads : List Signature} (h : (ofList mode entries).lookup? text = some overloads) :
    ∃ e ∈ entries, mode.fold e.1 = (ofList mode entries).mode.fold text ∧ e.2 = overloads := by
  rw [lookup?] at h
  obtain ⟨before, after, heq, -⟩ := List.lookup_eq_some_iff.1 h
  have hmem :
      ((ofList mode entries).mode.fold text, overloads) ∈ (ofList mode entries).entries := by
    rw [heq]
    exact List.mem_append_right _ List.mem_cons_self
  obtain ⟨e, he, hfold⟩ := mem_entries_ofList hmem
  exact ⟨e, he, congrArg Prod.fst hfold, congrArg Prod.snd hfold⟩

end WhitespaceAsm.MnemonicTable

import Mathlib.Data.List.Induction
import WhitespaceAsm.Proofs.ByteTrie

/-!
# A trie is the map of its keywords

Keywords are put into a trie one after another, and one with the folding of an earlier keyword is
refused. Whatever the order, the trie then answers as the list of the keywords that were taken.

* `Represents`: a trie and a list of keywords that say the same; `Represents.insert_of_taken`,
  `Represents.exists_insert`: one insertion, **`represents_ofList`**: a run of insertions;
* **`ofList_refines`**: insertions and look-ups in terms of the keywords.
-/

namespace WhitespaceAsm.ByteTrie

variable {α : Type}

/-- **The keywords that are taken** when some are put in one after another: all but those with the
folding of an earlier one. -/
def keywords (mode : CaseFold) (entries : List (Bytes × α)) : List (Bytes × α) :=
  entries.foldl (fun kept e => if kept.any (mode.same ·.1 e.1) then kept else kept ++ [e]) []

theorem keywords_append_singleton (mode : CaseFold) (entries : List (Bytes × α)) (e : Bytes × α) :
    keywords mode (entries ++ [e]) =
      if ∃ e' ∈ keywords mode entries, mode.fold e'.1 = mode.fold e.1 then keywords mode entries
      else keywords mode entries ++ [e] := by
  rw [keywords, List.foldl_append]
  change (if (keywords mode entries).any (mode.same ·.1 e.1) then _ else _) = _
  refine if_congr ?_ rfl rfl
  simp only [List.any_eq_true, CaseFold.same, beq_iff_eq]

theorem ofList_append_singleton (mode : CaseFold) (entries : List (Bytes × α)) (e : Bytes × α) :
    ofList mode (entries ++ [e]) = (ofList mode entries).insertAll [e] := List.foldl_append

theorem insertAll_singleton_of_ok {t t' : ByteTrie α} {e : Bytes × α}
    (h : t.insert e.1 e.2 = .ok t') : t.insertAll [e] = t' := by
  rw [insertAll, List.foldl_cons, h, List.foldl_nil]

theorem insertAll_singleton_of_error {t : ByteTrie α} {e : Bytes × α} {thrown : Thrown (ByteTrie α)}
    (h : t.insert e.1 e.2 = .error thrown) : t.insertAll [e] = thrown.left := by
  rw [insertAll, List.foldl_cons, h, List.foldl_nil]

/-! ## Tries that represent keywords -/

/-- **A trie represents some keywords**: it is sound, and has them folded for its entries, in their
order. -/
structure Represents (t : ByteTrie α) (kept : List (Bytes × α)) : Prop where
  sound : t.Sound
  entries_eq : t.entries = kept.map fun e => (t.mode.fold e.1, e.2)

namespace Represents

variable {t : ByteTrie α} {kept : List (Bytes × α)} (h : t.Represents kept)

include h

theorem exists_mem_entries_iff {p : Bytes × α → Prop} :
    (∃ e ∈ t.entries, p e) ↔ ∃ e ∈ kept, p (t.mode.fold e.1, e.2) := by
  rw [h.entries_eq]
  simp only [List.mem_map, exists_exists_and_eq_and]

theorem isSome_index?_iff (key : Bytes) :
    (t.root.index? key).isSome ↔ ∃ e ∈ kept, t.mode.fold e.1 = key := by
  rw [h.sound.isSome_index?_iff, h.exists_mem_entries_iff]

theorem value?_eq_some_iff (key : Bytes) (value : α) :
    t.value? key = some value ↔ ∃ e ∈ kept, t.mode.fold e.1 = key ∧ e.2 = value := by
  rw [h.sound.value?_eq_some_iff, h.entries_eq, List.mem_map]
  simp only [Prod.mk.injEq]

theorem isSome_value?_iff (key : Bytes) :
    (t.value? key).isSome ↔ ∃ e ∈ kept, t.mode.fold e.1 = key := by
  rw [h.sound.isSome_value?_iff, h.exists_mem_entries_iff]

/-! ### Insertion -/

/-- **A keyword is refused** when one with the same folding is there already, and nothing changes
then. -/
theorem insert_of_taken {key : Bytes} (value : α)
    (htaken : ∃ e ∈ kept, t.mode.fold e.1 = t.mode.fold key) :
    t.insert key value = .error ⟨.conflictingKeys, t⟩ :=
  insert_of_isSome value ((h.isSome_index?_iff _).2 htaken)

/-- **Any other keyword is taken.** -/
theorem exists_insert {key : Bytes} (value : α)
    (hnew : ¬ ∃ e ∈ kept, t.mode.fold e.1 = t.mode.fold key) :
    ∃ t', t.insert key value = .ok t' ∧ t'.mode = t.mode ∧
      t'.Represents (kept ++ [(key, value)]) := by
  rw [← h.isSome_index?_iff, Option.not_isSome_iff_eq_none] at hnew
  obtain ⟨t', ht', hsound, hmode, hentries⟩ := h.sound.exists_insert value hnew
  refine ⟨t', ht', hmode, hsound, ?_⟩
  rw [hentries, h.entries_eq, hmode, List.map_append, List.map_singleton]

/-! ### Looking texts up -/

/-- **A text is looked up** under its folding. -/
theorem get?_eq_some_iff (text : Bytes) (value : α) :
    t.get? text = some value ↔
      ∃ e ∈ kept, t.mode.fold e.1 = t.mode.fold text ∧ e.2 = value := by
  rw [get?_eq, h.value?_eq_some_iff]

theorem longestMatch?_eq_none_iff (text : Bytes) :
    t.longestMatch? text = none ↔ ∀ e ∈ kept, ¬ t.mode.fold e.1 <+: t.mode.fold text := by
  obtain ⟨found, hlongest, hmatch⟩ := h.sound.exists_isLongest text
  rw [hmatch, Option.map_eq_none_iff]
  cases found with
  | none =>
    refine iff_of_true rfl fun e he hstart => ?_
    have hvalue := (h.isSome_value?_iff _).2 ⟨e, he, rfl⟩
    rw [hlongest _ hstart] at hvalue
    cases hvalue
  | some found =>
    obtain ⟨hstart, hvalue, -⟩ := hlongest
    obtain ⟨e, he, hfold, -⟩ := (h.value?_eq_some_iff _ _).1 hvalue
    exact iff_of_false (Option.some_ne_none _) fun hnone => hnone e he (hfold ▸ hstart)

/-- **The longest match** is the longest keyword whose folding starts that of the text, and covers
the bytes that are folded to it. -/
theorem longestMatch?_eq_some_iff (text : Bytes) (m : Match α) :
    t.longestMatch? text = some m ↔
      ∃ e ∈ kept, t.mode.fold e.1 <+: t.mode.fold text ∧
        (∀ e' ∈ kept, t.mode.fold e'.1 <+: t.mode.fold text →
          (t.mode.fold e'.1).length ≤ (t.mode.fold e.1).length) ∧
        m = ⟨e.2, t.mode.sourceLength (t.mode.fold e.1).length text⟩ := by
  obtain ⟨found, hlongest, hmatch⟩ := h.sound.exists_isLongest text
  cases found with
  | none =>
    have hnone : t.longestMatch? text = none := hmatch
    refine iff_of_false (by rw [hnone]; exact Option.some_ne_none m ∘ Eq.symm) ?_
    rintro ⟨e, he, hstart, -⟩
    exact (h.longestMatch?_eq_none_iff text).1 hnone e he hstart
  | some found =>
    obtain ⟨key, value⟩ := found
    obtain ⟨hstart, hvalue, hlongest⟩ := hlongest
    rw [hmatch, Option.map_some, Option.some_inj]
    constructor
    · rintro rfl
      obtain ⟨e, he, rfl, rfl⟩ := (h.value?_eq_some_iff _ _).1 hvalue
      exact ⟨e, he, hstart, fun e' he' hstart' =>
        hlongest _ hstart' ((h.isSome_value?_iff _).2 ⟨e', he', rfl⟩), rfl⟩
    · rintro ⟨e, he, hstart', hlongest', rfl⟩
      obtain ⟨e', he', hfold, -⟩ := (h.value?_eq_some_iff _ _).1 hvalue
      -- two starts of one text that are as long as each other are the same
      have hle := hlongest' e' he' (hfold ▸ hstart)
      have hge := hlongest _ hstart' ((h.isSome_value?_iff _).2 ⟨e, he, rfl⟩)
      have hkey : key = t.mode.fold e.1 :=
        (List.prefix_of_prefix_length_le hstart hstart' (hfold ▸ hle)).eq_of_length
          (Nat.le_antisymm (hfold ▸ hle) hge)
      have hsame := (h.value?_eq_some_iff key e.2).2 ⟨e, he, hkey.symm, rfl⟩
      rw [hvalue, Option.some_inj] at hsame
      rw [hkey, hsame]

end Represents

/-! ## Runs of insertions -/

/-- **A run of insertions** leads to a trie that represents the keywords that were taken. -/
theorem represents_ofList (mode : CaseFold) (entries : List (Bytes × α)) :
    (ofList mode entries).Represents (keywords mode entries) := by
  induction entries using List.reverseRecOn with
  | nil => exact ⟨sound_empty mode, rfl⟩
  | append_singleton entries e ih =>
    have hmode := mode_ofList mode entries
    rw [ofList_append_singleton, keywords_append_singleton]
    split
    · next htaken =>
      rw [insertAll_singleton_of_error (ih.insert_of_taken e.2 (by rwa [hmode]))]
      exact ih
    · next hnew =>
      obtain ⟨t', ht', -, hrepresents⟩ := ih.exists_insert e.2 (by rwa [hmode])
      rw [insertAll_singleton_of_ok ht']
      exact hrepresents

/-- **A trie refines the map of its keywords**, after any insertions: one more of them acts on the
map, or throws and leaves the trie as it was, and look-ups read the map. -/
theorem ofList_refines (mode : CaseFold) (entries : List (Bytes × α)) :
    let t := ofList mode entries
    let kept := keywords mode entries
    t.root.Dense ∧
    (∀ key value,
      let next := entries ++ [(key, value)]
      if ∃ e ∈ kept, mode.fold e.1 = mode.fold key then
        (∃ thrown, t.insert key value = .error thrown ∧
          thrown.message = ascii "conflicting keys" ∧ thrown.left = t ∧ ofList mode next = t) ∧
          keywords mode next = kept
      else
        t.insert key value = .ok (ofList mode next) ∧
          keywords mode next = kept ++ [(key, value)]) ∧
    t.size = kept.length ∧
    (∀ text value, t.get? text = some value ↔
      ∃ e ∈ kept, mode.fold e.1 = mode.fold text ∧ e.2 = value) ∧
    (∀ text, t.longestMatch? text = none ↔ ∀ e ∈ kept, ¬ mode.fold e.1 <+: mode.fold text) ∧
    (∀ text m, t.longestMatch? text = some m ↔
      ∃ e ∈ kept, mode.fold e.1 <+: mode.fold text ∧
        (∀ e' ∈ kept, mode.fold e'.1 <+: mode.fold text →
          (mode.fold e'.1).length ≤ (mode.fold e.1).length) ∧
        m = ⟨e.2, mode.sourceLength (mode.fold e.1).length text⟩) := by
  intro t kept
  have hmode : t.mode = mode := mode_ofList mode entries
  have h : t.Represents kept := represents_ofList mode entries
  refine ⟨h.sound.dense, fun key value => ?_, ?_, ?_, ?_, ?_⟩
  · intro next
    have hnext : ofList mode next = t.insertAll [(key, value)] :=
      ofList_append_singleton mode entries (key, value)
    have hkeywords := keywords_append_singleton mode entries (key, value)
    by_cases htaken : ∃ e ∈ kept, mode.fold e.1 = mode.fold key
    · have hinsert := h.insert_of_taken value (by rwa [hmode])
      rw [if_pos htaken, hnext, insertAll_singleton_of_error (e := (key, value)) hinsert]
      exact ⟨⟨_, hinsert, rfl, rfl, rfl⟩, hkeywords.trans (if_pos htaken)⟩
    · obtain ⟨t', hinsert, -⟩ := h.exists_insert value (by rwa [hmode])
      rw [if_neg htaken, hnext, insertAll_singleton_of_ok (e := (key, value)) hinsert]
      exact ⟨hinsert, hkeywords.trans (if_neg htaken)⟩
  · rw [size, h.entries_eq, List.length_map]
  · intro text value
    rw [h.get?_eq_some_iff, hmode]
  · intro text
    rw [h.longestMatch?_eq_none_iff, hmode]
  · intro text m
    rw [h.longestMatch?_eq_some_iff, hmode]

end WhitespaceAsm.ByteTrie

import WhitespaceAsm.Proofs.ByteTrie.Lookup

/-!
# Tries as maps of folded keywords

The tree of a trie leads from a folded keyword to the number of its entry, and the entries have the
keywords and the values. A trie is sound when the tree is dense and finds just the entries that
there are.

* **`Sound`**, **`value?`**: sound tries, and their maps; `Sound.value?_eq_some_iff`: the entries;
* `insert_of_isSome`, **`Sound.exists_insert`**, `Sound.insertAll`: insertions; `value?_ofList`:
  the map after them;
* **`get?_eq`**, `longestMatch?_eq_some`, `Sound.exists_isLongest`: looking a text up;
  `Sound.longestMatch?_append_lf`: no match reaches across a line feed.
-/

namespace WhitespaceAsm.ByteTrie

variable {α : Type}

/-- **The tree of a trie finds its entries**, each under its own folded keyword and no other one,
and looks for children only where there are some. -/
structure Sound (t : ByteTrie α) : Prop where
  dense : t.root.Dense
  index? : ∀ key i, t.root.index? key = some i ↔ t.entries[i]?.map (·.1) = some key

/-- **The value that a trie keeps for a folded keyword.** -/
def value? (t : ByteTrie α) (key : Bytes) : Option α := (t.root.index? key).bind t.valueAt?

namespace Sound

variable {t : ByteTrie α} (h : t.Sound)

include h

theorem isSome_index?_iff (key : Bytes) :
    (t.root.index? key).isSome ↔ ∃ e ∈ t.entries, e.1 = key := by
  rw [Option.isSome_iff_exists]
  constructor
  · rintro ⟨i, hi⟩
    obtain ⟨e, he, hkey⟩ := Option.map_eq_some_iff.1 ((h.index? key i).1 hi)
    exact ⟨e, List.mem_of_getElem? he, hkey⟩
  · rintro ⟨e, he, hkey⟩
    obtain ⟨i, hi⟩ := List.mem_iff_getElem?.1 he
    exact ⟨i, (h.index? key i).2 (by rw [hi, Option.map_some, hkey])⟩

/-- **The map has the entries** and nothing else. -/
theorem value?_eq_some_iff (key : Bytes) (value : α) :
    t.value? key = some value ↔ (key, value) ∈ t.entries := by
  rw [value?, Option.bind_eq_some_iff, List.mem_iff_getElem?]
  refine exists_congr fun i => ?_
  rw [h.index?, valueAt?, Option.map_eq_some_iff, Option.map_eq_some_iff]
  constructor
  · rintro ⟨⟨e, he, rfl⟩, e', he', rfl⟩
    rw [he] at he'
    obtain rfl := Option.some.inj he'
    exact he
  · intro he
    exact ⟨⟨_, he, rfl⟩, _, he, rfl⟩

theorem isSome_value?_iff (key : Bytes) : (t.value? key).isSome ↔ ∃ e ∈ t.entries, e.1 = key := by
  rw [Option.isSome_iff_exists]
  constructor
  · rintro ⟨value, hvalue⟩
    exact ⟨(key, value), (h.value?_eq_some_iff key value).1 hvalue, rfl⟩
  · rintro ⟨e, he, rfl⟩
    exact ⟨e.2, (h.value?_eq_some_iff e.1 e.2).2 he⟩

end Sound

/-! ## Insertion -/

theorem sound_empty (mode : CaseFold) : ({ mode } : ByteTrie α).Sound :=
  ⟨Node.dense_empty, fun key i => iff_of_false (by rw [Node.index?_empty]; nofun) nofun⟩

/-- **A keyword that is there already is refused**, and the trie is left as it was. -/
theorem insert_of_isSome {t : ByteTrie α} {key : Bytes} (value : α)
    (h : (t.root.index? (t.mode.fold key)).isSome) :
    t.insert key value = .error ⟨.conflictingKeys, t⟩ := by
  rw [insert, Node.insertAt_of_isSome _ h]

namespace Sound

variable {t : ByteTrie α} (h : t.Sound)

include h

/-- **Any other keyword is taken**, as the last entry. -/
theorem exists_insert {key : Bytes} (value : α)
    (hnew : t.root.index? (t.mode.fold key) = none) : ∃ t', t.insert key value = .ok t' ∧
      t'.Sound ∧ t'.mode = t.mode ∧ t'.entries = t.entries ++ [(t.mode.fold key, value)] := by
  obtain ⟨root, hroot, hdense, hmap⟩ :=
    Node.exists_insertAt_of_eq_none t.entries.length h.dense hnew
  refine ⟨{ t with root, entries := t.entries ++ [(t.mode.fold key, value)] }, ?_,
    ⟨hdense, fun k i => ?_⟩, rfl, rfl⟩
  · rw [insert, hroot]
  · dsimp only
    rw [hmap]
    obtain hlt | rfl | hlt := Nat.lt_trichotomy i t.entries.length
    · -- an entry of before, which is not the one of the new keyword
      rw [List.getElem?_append_left hlt, ← h.index?]
      split
      · next hk =>
        subst hk
        rw [hnew]
        exact iff_of_false (fun heq => hlt.ne' (Option.some.inj heq)) nofun
      · rfl
    · rw [List.getElem?_concat_length, Option.map_some, Option.some_inj]
      split
      · next hk => exact iff_of_true rfl hk.symm
      · next hk =>
        refine iff_of_false (fun hentry => ?_) (Ne.symm hk)
        have hget := (h.index? k _).1 hentry
        rw [List.getElem?_eq_none (Nat.le_refl _)] at hget
        cases hget
    · have hget : (t.entries ++ [(t.mode.fold key, value)])[i]? = none :=
        List.getElem?_eq_none (by rw [List.length_append, List.length_singleton]; omega)
      rw [hget]
      refine iff_of_false (fun hentry => ?_) nofun
      split at hentry
      · exact hlt.ne (Option.some.inj hentry)
      · have hold := (h.index? k i).1 hentry
        rw [List.getElem?_eq_none hlt.le] at hold
        cases hold

/-- **Insertion after insertion** leaves a sound trie, with entries of before and of keywords that
were put in. -/
theorem insertAll (entries : List (Bytes × α)) : (t.insertAll entries).Sound ∧
    (t.insertAll entries).mode = t.mode ∧ ∀ e ∈ (t.insertAll entries).entries,
      e ∈ t.entries ∨ ∃ e' ∈ entries, (t.mode.fold e'.1, e'.2) = e := by
  induction entries generalizing t with
  | nil => exact ⟨h, rfl, fun e he => .inl he⟩
  | cons first entries ih =>
    rw [ByteTrie.insertAll, List.foldl_cons]
    cases hentry : t.root.index? (t.mode.fold first.1) with
    | some i =>
      rw [insert_of_isSome first.2 (by rw [hentry]; rfl)]
      obtain ⟨hsound, hmode, hentries⟩ := ih h
      refine ⟨hsound, hmode, fun e he => (hentries e he).imp_right ?_⟩
      rintro ⟨e', he', heq⟩
      exact ⟨e', List.mem_cons_of_mem _ he', heq⟩
    | none =>
      obtain ⟨t', ht', hsound', hmode', hentries'⟩ := h.exists_insert first.2 hentry
      rw [ht']
      obtain ⟨hsound, hmode, hentries⟩ := ih hsound'
      refine ⟨hsound, hmode.trans hmode', fun e he => ?_⟩
      obtain he | ⟨e', he', heq⟩ := hentries e he
      · rw [hentries', List.mem_append, List.mem_singleton] at he
        obtain he | rfl := he
        · exact .inl he
        · exact .inr ⟨first, List.mem_cons_self, rfl⟩
      · exact .inr ⟨e', List.mem_cons_of_mem _ he', hmode' ▸ heq⟩

end Sound

theorem sound_ofList (mode : CaseFold) (entries : List (Bytes × α)) :
    (ofList mode entries).Sound := ((sound_empty mode).insertAll entries).1

theorem mode_ofList (mode : CaseFold) (entries : List (Bytes × α)) :
    (ofList mode entries).mode = mode := ((sound_empty mode).insertAll entries).2.1

/-- **Every value of a trie is one that was put in**, under the folding of its keyword. -/
theorem value?_ofList {mode : CaseFold} {entries : List (Bytes × α)} {key : Bytes} {value : α}
    (h : (ofList mode entries).value? key = some value) :
    ∃ e ∈ entries, mode.fold e.1 = key ∧ e.2 = value := by
  obtain ⟨hsound, -, hentries⟩ := (sound_empty mode).insertAll entries
  obtain he | ⟨e, he, heq⟩ := hentries _ ((hsound.value?_eq_some_iff key value).1 h)
  · cases he
  · exact ⟨e, he, congrArg Prod.fst heq, congrArg Prod.snd heq⟩

/-! ## Looking texts up -/

theorem get?_eq (t : ByteTrie α) (text : Bytes) : t.get? text = t.value? (t.mode.fold text) := by
  rw [get?, Node.get?_eq, value?]

theorem longestMatch?_eq_some {t : ByteTrie α} {s : Bytes} {m : Match α}
    (h : t.longestMatch? s = some m) :
    m.length ≤ s.length ∧ t.value? (t.mode.fold (s.take m.length)) = some m.value := by
  obtain ⟨found, hfound, hmap⟩ := Option.bind_eq_some_iff.1 h
  obtain ⟨value, hvalue, rfl⟩ := Option.map_eq_some_iff.1 hmap
  obtain ⟨hle, hentry⟩ := Node.longestMatch?_eq_some hfound
  exact ⟨hle, by rw [value?, hentry]; exact hvalue⟩

namespace Sound

variable {t : ByteTrie α} (h : t.Sound)

include h

/-- **The longest match** is the longest keyword that starts the folded text, with the bytes that
are folded to it. -/
theorem exists_isLongest (s : Bytes) :
    ∃ found, IsLongest t.value? (t.mode.fold s) found ∧ t.longestMatch? s
      = found.map fun e => ⟨e.2, t.mode.sourceLength e.1.length s⟩ := by
  have hsome : ∀ key, (t.value? key).isSome ↔ (t.root.index? key).isSome := fun key => by
    rw [h.isSome_value?_iff, h.isSome_index?_iff]
  obtain ⟨found, hlongest, hmatch⟩ := t.root.exists_isLongest t.mode s
  cases found with
  | none =>
    refine ⟨none, fun key hkey => ?_, by rw [longestMatch?, hmatch]; rfl⟩
    rw [value?, hlongest key hkey, Option.bind_none]
  | some found =>
    obtain ⟨key, i⟩ := found
    obtain ⟨hstart, hentry, hmax⟩ := hlongest
    obtain ⟨value, hvalue⟩ := Option.isSome_iff_exists.1 ((hsome key).2 (by rw [hentry]; rfl))
    refine ⟨some (key, value), ⟨hstart, hvalue, fun key' hkey' hkeyword =>
      hmax key' hkey' ((hsome key').1 hkeyword)⟩, ?_⟩
    rw [value?, hentry, Option.bind_some] at hvalue
    rw [longestMatch?, hmatch, Option.map_some, Option.bind_some]
    dsimp only
    rw [hvalue]
    rfl

/-- **No match reaches across a line feed**, when no keyword has one. -/
theorem longestMatch?_append_lf (hlf : ∀ key value, t.value? key = some value → Ascii.lf ∉ key)
    (s s' : Bytes) : t.longestMatch? (s ++ Ascii.lf :: s') = t.longestMatch? s := by
  rw [longestMatch?, longestMatch?, Node.longestMatch?_append_lf]
  intro key i hi
  obtain ⟨e, he, rfl⟩ := (h.isSome_index?_iff key).1 (by rw [hi]; rfl)
  exact hlf e.1 e.2 ((h.value?_eq_some_iff e.1 e.2).2 he)

end Sound

end WhitespaceAsm.ByteTrie

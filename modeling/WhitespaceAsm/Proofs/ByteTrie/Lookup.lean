import WhitespaceAsm.Proofs.ByteTrie.Insert
import WhitespaceAsm.Proofs.CaseFold

/-!
# Looking texts up in tries

The two ways of looking a text up read the map of a node at the folding of the text, or at a part of
it.

* **`Node.get?_eq`**: looking a keyword up; `Node.longestMatch?_eq_some`: the part of a text that
  the longest match covers;
* `IsLongest`, **`Node.exists_isLongest`**: the keyword that the longest match is.
-/

namespace WhitespaceAsm.ByteTrie

/-- **The longest key of a map that starts a folded text**, with what the map keeps for it, if there
is one. -/
def IsLongest {β : Type} (map : Bytes → Option β) (folded : Bytes) : Option (Bytes × β) → Prop
  | none => ∀ key, key <+: folded → map key = none
  | some (key, value) => key <+: folded ∧ map key = some value ∧
      ∀ key', key' <+: folded → (map key').isSome → key'.length ≤ key.length

namespace Node

variable {mode : CaseFold}

/-- **A keyword is found under its folding.** -/
theorem get?_eq (n : Node) (s : Bytes) : n.get? mode s = n.index? (mode.fold s) := by
  induction s using CaseFold.foldInduction mode generalizing n with
  | nil =>
    cases n with
    | leaf tail entry => simp only [get?, index?_leaf, CaseFold.matchLength?_eq_length]
    | branch set children terminal => rw [get?, CaseFold.fold, index?_branch_nil]
  | cons b rest ih =>
    cases n with
    | leaf tail entry => simp only [get?, index?_leaf, CaseFold.matchLength?_eq_length]
    | branch set children terminal =>
      rw [get?, CaseFold.fold_cons, index?_branch_cons]
      cases child? set children (mode.next b rest).byte with
      | none => rfl
      | some child => exact ih child

theorem longestMatch?_branch_cons (set : ByteSet) (children : List Node) (terminal : Option Nat)
    (b : UInt8) (rest : Bytes) :
    (branch set children terminal).longestMatch? mode (b :: rest) =
      (((child? set children (mode.next b rest).byte).bind fun child =>
        child.longestMatch? mode (rest.drop ((mode.next b rest).length - 1))).map fun found =>
          ⟨found.value, (mode.next b rest).length + found.length⟩).or
        (terminal.map fun entry => ⟨entry, 0⟩) := by
  rw [longestMatch?]
  cases child? set children (mode.next b rest).byte with
  | none => rfl
  | some child =>
    dsimp only [Option.bind_some]
    cases child.longestMatch? mode (rest.drop ((mode.next b rest).length - 1)) <;> rfl

theorem longestMatch?_leaf (tail : Bytes) (entry : Nat) (s : Bytes) :
    (leaf tail entry).longestMatch? mode s = (mode.matchLength? s tail).map (⟨entry, ·⟩) := by
  rw [longestMatch?]

/-- **The longest match covers a part of the text** that folds to a keyword. -/
theorem longestMatch?_eq_some {n : Node} {s : Bytes} {m : Match Nat}
    (h : n.longestMatch? mode s = some m) :
    m.length ≤ s.length ∧ n.index? (mode.fold (s.take m.length)) = some m.value := by
  induction s using CaseFold.foldInduction mode generalizing n m with
  | nil =>
    cases n with
    | leaf tail entry =>
      rw [longestMatch?] at h
      obtain ⟨k, hk, rfl⟩ := Option.map_eq_some_iff.1 h
      obtain ⟨hle, hfold⟩ := CaseFold.matchLength?_eq_some hk
      exact ⟨hle, by rw [index?_leaf, if_pos hfold]⟩
    | branch set children terminal =>
      rw [longestMatch?] at h
      obtain ⟨v, rfl, rfl⟩ := Option.map_eq_some_iff.1 h
      exact ⟨Nat.le_refl _, by rw [List.take_zero, CaseFold.fold, index?_branch_nil]⟩
  | cons b rest ih =>
    cases n with
    | leaf tail entry =>
      rw [longestMatch?] at h
      obtain ⟨k, hk, rfl⟩ := Option.map_eq_some_iff.1 h
      obtain ⟨hle, hfold⟩ := CaseFold.matchLength?_eq_some hk
      exact ⟨hle, by rw [index?_leaf, if_pos hfold]⟩
    | branch set children terminal =>
      rw [longestMatch?_branch_cons, Option.or_eq_some_iff] at h
      obtain h | ⟨-, h⟩ := h
      · obtain ⟨found, hfound, rfl⟩ := Option.map_eq_some_iff.1 h
        obtain ⟨child, hchild, hmatch⟩ := Option.bind_eq_some_iff.1 hfound
        obtain ⟨hle, hentry⟩ := ih hmatch
        rw [List.length_drop] at hle
        have hmax := CaseFold.next_length_le mode b rest
        obtain ⟨k, hk⟩ := Nat.exists_eq_add_of_le' (CaseFold.next_length_pos mode b rest)
        have hnext : mode.next b (rest.take (k + found.length)) = mode.next b rest :=
          CaseFold.next_take mode (by omega)
        rw [hk, Nat.add_sub_cancel] at hentry
        have htake : k + 1 + found.length = (k + found.length) + 1 := by omega
        dsimp only
        rw [hk, htake, List.take_succ_cons, CaseFold.fold_cons, hnext, index?_branch_cons, hchild,
          hk, Nat.add_sub_cancel, List.drop_take, Nat.add_sub_cancel_left, List.length_cons]
        exact ⟨by omega, hentry⟩
      · obtain ⟨v, rfl, rfl⟩ := Option.map_eq_some_iff.1 h
        exact ⟨Nat.zero_le _, by rw [List.take_zero, CaseFold.fold, index?_branch_nil]⟩

/-! ## The longest keyword -/

section Longest

variable {set : ByteSet} {children : List Node} {terminal : Option Nat}

variable (set children terminal) in
theorem isLongest_branch_nil :
    IsLongest (branch set children terminal).index? [] (terminal.map (([], ·))) := by
  cases terminal with
  | none =>
    intro key hkey
    rw [List.prefix_nil.1 hkey, index?_branch_nil]
  | some entry =>
    refine ⟨List.nil_prefix, index?_branch_nil _ _ _, fun key hkey _ => ?_⟩
    exact hkey.length_le

theorem isLongest_branch_cons {b : UInt8} {folded : Bytes} (below : Option (Bytes × Nat))
    (hnone : child? set children b = none → below = none)
    (hchild : ∀ child, child? set children b = some child →
      IsLongest child.index? folded below) :
    IsLongest (branch set children terminal).index? (b :: folded)
      ((below.map fun e => (b :: e.1, e.2)).or (terminal.map (([], ·)))) := by
  cases below with
  | none =>
    -- no keyword goes on with the next byte
    have hshort : ∀ key, key <+: b :: folded →
        ((branch set children terminal).index? key).isSome → key = [] := by
      intro key hkey hsome
      obtain rfl | ⟨rest, rfl, hrest⟩ := List.prefix_cons_iff.1 hkey
      · rfl
      · rw [index?_branch_cons] at hsome
        cases hfound : child? set children b with
        | none => simp [hfound] at hsome
        | some child => simp [hfound, hchild child hfound rest hrest] at hsome
    cases terminal with
    | none =>
      intro key hkey
      rw [Option.eq_none_iff_forall_ne_some]
      intro entry hentry
      obtain rfl := hshort key hkey (by rw [hentry]; rfl)
      rw [index?_branch_nil] at hentry
      cases hentry
    | some entry =>
      refine ⟨List.nil_prefix, index?_branch_nil _ _ _, fun key hkey hsome => ?_⟩
      obtain rfl := hshort key hkey hsome
      exact Nat.le_refl _
  | some e =>
    cases hfound : child? set children b with
    | none => cases hnone hfound
    | some child =>
      obtain ⟨hkey, hentry, hlongest⟩ := hchild child hfound
      refine ⟨List.cons_prefix_cons.2 ⟨rfl, hkey⟩, ?_, fun key' hkey' hsome => ?_⟩
      · rw [index?_branch_cons, hfound]
        exact hentry
      · obtain rfl | ⟨rest, rfl, hrest⟩ := List.prefix_cons_iff.1 hkey'
        · exact Nat.zero_le _
        · rw [index?_branch_cons, hfound] at hsome
          exact Nat.succ_le_succ (hlongest rest hrest hsome)

end Longest

theorem exists_isLongest_leaf (mode : CaseFold) (tail : Bytes) (entry : Nat) (s : Bytes) :
    ∃ found, IsLongest (leaf tail entry).index? (mode.fold s) found ∧
      (leaf tail entry).longestMatch? mode s
        = found.map fun e => ⟨e.2, mode.sourceLength e.1.length s⟩ := by
  rw [longestMatch?_leaf]
  cases hmatch : mode.matchLength? s tail with
  | none =>
    refine ⟨none, fun key hkey => ?_, rfl⟩
    rw [index?_leaf]
    refine if_neg fun htail => ?_
    rw [CaseFold.matchLength?_eq_some_iff.2 ⟨htail ▸ hkey, rfl⟩] at hmatch
    cases hmatch
  | some k =>
    obtain ⟨hstart, rfl⟩ := CaseFold.matchLength?_eq_some_iff.1 hmatch
    refine ⟨some (tail, entry), ⟨hstart, by rw [index?_leaf, if_pos rfl], ?_⟩, rfl⟩
    rintro key' - hsome
    rw [index?_leaf] at hsome
    split at hsome
    · next heq => exact Nat.le_of_eq (congrArg List.length heq)
    · cases hsome

/-- **The longest match** is the longest keyword that starts the folded text, with the bytes that
are folded to it. -/
theorem exists_isLongest (mode : CaseFold) (n : Node) (s : Bytes) :
    ∃ found, IsLongest n.index? (mode.fold s) found ∧ n.longestMatch? mode s
      = found.map fun e => ⟨e.2, mode.sourceLength e.1.length s⟩ := by
  induction s using CaseFold.foldInduction mode generalizing n with
  | nil =>
    cases n with
    | leaf tail entry => exact exists_isLongest_leaf mode tail entry []
    | branch set children terminal =>
      rw [CaseFold.fold, longestMatch?]
      refine ⟨_, isLongest_branch_nil set children terminal, ?_⟩
      cases terminal <;> rfl
  | cons b rest ih =>
    cases n with
    | leaf tail entry => exact exists_isLongest_leaf mode tail entry (b :: rest)
    | branch set children terminal =>
      rw [CaseFold.fold_cons, longestMatch?_branch_cons]
      cases hfound : child? set children (mode.next b rest).byte with
      | none =>
        refine ⟨_, isLongest_branch_cons none (fun _ => rfl) ?_, ?_⟩
        · intro child hchild
          rw [hfound] at hchild
          cases hchild
        · cases terminal <;> rfl
      | some child =>
        obtain ⟨below, hbelow, hmatch⟩ := ih child
        refine ⟨_, isLongest_branch_cons below ?_ ?_, ?_⟩
        · intro hnone
          rw [hfound] at hnone
          cases hnone
        · intro child' hchild
          rw [hfound] at hchild
          obtain rfl := Option.some.inj hchild
          exact hbelow
        · rw [Option.bind_some, hmatch]
          cases below with
          | none => cases terminal <;> rfl
          | some e => rfl

/-! ## Line feeds -/

/-- **No match reaches across a line feed**, when no keyword has one. -/
theorem longestMatch?_append_lf {n : Node}
    (hn : ∀ key entry, n.index? key = some entry → Ascii.lf ∉ key) (s t : Bytes) :
    n.longestMatch? mode (s ++ Ascii.lf :: t) = n.longestMatch? mode s := by
  induction s using CaseFold.foldInduction mode generalizing n with
  | nil =>
    cases n with
    | leaf tail entry =>
      have htail : Ascii.lf ∉ tail := hn tail entry (by rw [index?_leaf, if_pos rfl])
      rw [longestMatch?, longestMatch?, CaseFold.matchLength?_append_lf htail]
    | branch set children terminal =>
      have hnone : (child? set children Ascii.lf).bind (fun child => child.longestMatch? mode t)
          = none := by
        rw [Option.bind_eq_none_iff]
        intro child hchild
        rw [Option.eq_none_iff_forall_not_mem]
        intro m hm
        refine hn (Ascii.lf :: mode.fold (t.take m.length)) m.value ?_ List.mem_cons_self
        rw [index?_branch_cons, hchild]
        exact (longestMatch?_eq_some hm).2
      rw [List.nil_append, longestMatch?_branch_cons, CaseFold.next_lf, longestMatch?]
      simp only [Nat.sub_self, List.drop_zero, hnone]
      rfl
  | cons b rest ih =>
    cases n with
    | leaf tail entry =>
      have htail : Ascii.lf ∉ tail := hn tail entry (by rw [index?_leaf, if_pos rfl])
      rw [longestMatch?, longestMatch?, CaseFold.matchLength?_append_lf htail]
    | branch set children terminal =>
      have hmax := CaseFold.next_length_le mode b rest
      rw [List.cons_append, longestMatch?_branch_cons, longestMatch?_branch_cons,
        CaseFold.next_append_lf, List.drop_append_of_le_length (by omega)]
      cases hchild : child? set children (mode.next b rest).byte with
      | none => rfl
      | some child =>
        have hkeys : ∀ key entry, child.index? key = some entry → Ascii.lf ∉ key := by
          intro key entry hkey hmem
          refine hn ((mode.next b rest).byte :: key) entry ?_ (List.mem_cons_of_mem _ hmem)
          rw [index?_branch_cons, hchild]
          exact hkey
        dsimp only [Option.bind_some]
        rw [ih hkeys]

end Node

end WhitespaceAsm.ByteTrie

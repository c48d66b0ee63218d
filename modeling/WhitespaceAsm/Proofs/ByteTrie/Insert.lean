import WhitespaceAsm.ByteTrie
import WhitespaceAsm.Proofs.ByteSet

/-!
# Insertion into tries

A node of a trie stands for a finite map from folded keywords to entries. Insertion extends the map,
wherever the new child goes among its siblings and whichever leaf is split on the way, or throws and
leaves the node as it was.

* **`Node.Dense`**: the children of every branch stand in the order of the bytes of its set;
  `Node.child?_set`, `Node.child?_insertIdx`: the children after one changes or is new;
* **`Node.index?`**: the map of a node; `Node.index?_split`, `Node.insertAt_leaf`: splitting a leaf;
* **`Node.insertAt_of_isSome`**, **`Node.exists_insertAt_of_eq_none`**: the map after an insertion.
-/

namespace WhitespaceAsm.ByteTrie

namespace Node

/-! ## Children -/

/-- **Every branch has one child for each byte of its set**, and so have the nodes below it. -/
inductive Dense : Node → Prop
  | branch {set : ByteSet} {children : List Node} (terminal : Option Nat)
    (hlength : children.length = set.size) (hchildren : ∀ child ∈ children, Dense child) :
    Dense (branch set children terminal)
  | leaf (tail : Bytes) (entry : Nat) : Dense (leaf tail entry)

section Children

variable {set : ByteSet} {children : List Node} {b : UInt8} {child : Node}

theorem child?_eq_some_iff (hlength : children.length = set.size) :
    child? set children b = some child ↔ b ∈ set ∧ children[set.rank b]? = some child := by
  rw [child?]
  split
  · next hb =>
    have hlt : set.rank b < children.length := hlength ▸ ByteSet.rank_lt_size hb
    rw [List.getD_eq_getElem?_getD, List.getElem?_eq_getElem hlt, Option.getD_some]
    exact (and_iff_right hb).symm
  · next hb => exact iff_of_false nofun fun h => hb h.1

theorem child?_eq_none_iff : child? set children b = none ↔ b ∉ set := by
  rw [child?]
  split <;> simp [*]

theorem mem_of_child?_eq_some (h : child? set children b = some child) : b ∈ set := by
  rw [child?] at h
  split at h
  · assumption
  · cases h

theorem set_rank_of_child? (h : child? set children b = some child) :
    children.set (set.rank b) child = children := by
  rw [child?, if_pos (mem_of_child?_eq_some h), Option.some_inj, List.getD_eq_getElem?_getD] at h
  by_cases hlt : set.rank b < children.length
  · rw [List.getElem?_eq_getElem hlt, Option.getD_some] at h
    rw [← h, List.set_getElem_self]
  · exact List.set_eq_of_length_le (Nat.not_lt.1 hlt)

variable (hlength : children.length = set.size) (new : Node) (c : UInt8)

include hlength

/-- **One child changes**, and the others stay. -/
theorem child?_set (hb : b ∈ set) : child? set (children.set (set.rank b) new) c
    = if c = b then some new else child? set children c := by
  refine Option.ext fun child => ?_
  rw [child?_eq_some_iff (by rw [List.length_set, hlength]), List.getElem?_set]
  have hlt : set.rank b < children.length := hlength ▸ ByteSet.rank_lt_size hb
  by_cases hc : c = b
  · subst hc
    rw [if_pos rfl, if_pos hlt, if_pos rfl]
    exact and_iff_right hb
  · rw [if_neg hc, child?_eq_some_iff hlength]
    refine and_congr_right fun hmem => ?_
    rw [if_neg fun hrank => hc (ByteSet.rank_injective hmem hb hrank.symm)]

/-- **A new child goes in by the rank of its byte**, and the others are found behind it or before
it. -/
theorem child?_insertIdx (hb : b ∉ set) :
    child? (set.insert b) (children.insertIdx (set.rank b) new) c
      = if c = b then some new else child? set children c := by
  have hle : set.rank b ≤ children.length := hlength ▸ ByteSet.rank_le_size set b
  refine Option.ext fun child => ?_
  rw [child?_eq_some_iff (by rw [List.length_insertIdx_of_le_length hle, hlength,
    ByteSet.size_insert hb]), ByteSet.mem_insert, ByteSet.rank_insert hb, List.getElem?_insertIdx]
  by_cases hc : c = b
  · subst hc
    rw [if_neg (Nat.lt_irrefl c.toNat), Nat.add_zero, if_neg (Nat.lt_irrefl _), if_pos rfl,
      if_pos hle, if_pos rfl]
    exact and_iff_right (.inr rfl)
  · have hmem : c ∈ set ∨ c = b ↔ c ∈ set := or_iff_left hc
    rw [if_neg hc, child?_eq_some_iff hlength, hmem]
    refine and_congr_right fun hcs => ?_
    -- the children behind the new one move by one place
    have hne : c.toNat ≠ b.toNat := fun h => hc (UInt8.toNat_inj.1 h)
    obtain hlt | hlt := Nat.lt_or_gt_of_ne hne
    · have hrank : set.rank c < set.rank b := ByteSet.rank_lt_rank hcs hlt
      rw [if_neg (Nat.not_lt.2 hlt.le), Nat.add_zero, if_pos hrank]
    · have hrank : set.rank b ≤ set.rank c := ByteSet.rank_le_rank hlt.le
      rw [if_pos hlt, if_neg (by omega), if_neg (by omega), Nat.add_sub_cancel]

end Children

section Dense

variable {set : ByteSet} {children : List Node} {terminal : Option Nat} {b : UInt8} {child : Node}

theorem Dense.length_eq (h : (Node.branch set children terminal).Dense) :
    children.length = set.size := by
  cases h
  assumption

/-- **A child is within the row**, and its node is dense. -/
theorem Dense.of_child? (h : (Node.branch set children terminal).Dense)
    (hchild : child? set children b = some child) :
    set.rank b < children.length ∧ child.Dense := by
  obtain ⟨hb, hget⟩ := (child?_eq_some_iff h.length_eq).1 hchild
  cases h with
  | branch _ hlength hchildren =>
    exact ⟨hlength ▸ ByteSet.rank_lt_size hb, hchildren _ (List.mem_of_getElem? hget)⟩

theorem Dense.setChild (h : (Node.branch set children terminal).Dense) (hchild : child.Dense)
    (i : Nat) : (Node.branch set (children.set i child) terminal).Dense := by
  cases h with
  | branch _ hlength hchildren =>
    refine .branch _ (by rw [List.length_set, hlength]) fun c hc => ?_
    obtain hc | rfl := List.mem_or_eq_of_mem_set hc
    · exact hchildren c hc
    · exact hchild

theorem Dense.insertChild (h : (Node.branch set children terminal).Dense) (hb : b ∉ set)
    (hchild : child.Dense) :
    (Node.branch (set.insert b) (children.insertIdx (set.rank b) child) terminal).Dense := by
  cases h with
  | branch _ hlength hchildren =>
    have hle : set.rank b ≤ children.length := hlength ▸ ByteSet.rank_le_size set b
    refine .branch _ ?_ fun c hc => ?_
    · rw [List.length_insertIdx_of_le_length hle, hlength, ByteSet.size_insert hb]
    · obtain rfl | hc := (List.mem_insertIdx hle).1 hc
      · exact hchild
      · exact hchildren c hc

theorem dense_split (tail : Bytes) (entry : Nat) : (split tail entry).Dense := by
  cases tail with
  | nil => exact .branch _ ByteSet.size_empty.symm nofun
  | cons b tail =>
    refine .branch _ ?_ (List.forall_mem_singleton.2 (.leaf tail entry))
    rw [ByteSet.size_insert (ByteSet.notMem_empty b), ByteSet.size_empty]
    rfl

theorem dense_empty : empty.Dense := .branch _ ByteSet.size_empty.symm nofun

end Dense

/-! ## The map of a node -/

/-- **The entry that a node keeps for a folded keyword.** -/
def index? : Node → Bytes → Option Nat
  | leaf tail entry, key => if key = tail then some entry else none
  | branch _ _ terminal, [] => terminal
  | branch set children _, b :: key => (child? set children b).bind fun child => child.index? key
termination_by _ key => key

section Entries

variable (set : ByteSet) (children : List Node) (terminal : Option Nat) (tail : Bytes) (entry : Nat)

theorem index?_leaf (key : Bytes) :
    (leaf tail entry).index? key = if key = tail then some entry else none := by
  rw [index?]

theorem index?_branch_nil : (branch set children terminal).index? [] = terminal := by
  rw [index?]

theorem index?_branch_cons (b : UInt8) (key : Bytes) :
    (branch set children terminal).index? (b :: key)
      = (child? set children b).bind fun child => child.index? key := by
  rw [index?]

theorem child?_empty (b : UInt8) : child? ∅ [] b = none :=
  child?_eq_none_iff.2 (ByteSet.notMem_empty b)

theorem index?_empty (key : Bytes) : empty.index? key = none := by
  cases key with
  | nil => rw [empty, index?_branch_nil]
  | cons b key => rw [empty, index?_branch_cons, child?_empty, Option.bind_none]

theorem child?_singleton (b c : UInt8) :
    child? (ByteSet.insert ∅ b) [leaf tail entry] c
      = if c = b then some (leaf tail entry) else none := by
  have hrank : (∅ : ByteSet).rank b = 0 :=
    Nat.le_zero.1 (ByteSet.size_empty ▸ ByteSet.rank_le_size ∅ b)
  have hlength : ([] : List Node).length = (∅ : ByteSet).size := ByteSet.size_empty.symm
  have hinsert := child?_insertIdx hlength (leaf tail entry) c (ByteSet.notMem_empty b)
  rwa [hrank, child?_empty] at hinsert

/-- **A leaf that is split** keeps its keyword. -/
theorem index?_split (key : Bytes) : (split tail entry).index? key
    = (leaf tail entry).index? key := by
  cases tail with
  | nil =>
    cases key with
    | nil => rw [split, index?_branch_nil, index?_leaf, if_pos rfl]
    | cons b key =>
      rw [split, index?_branch_cons, child?_empty, index?_leaf, if_neg (List.cons_ne_nil b key)]
      rfl
  | cons c tail =>
    cases key with
    | nil => rw [split, index?_branch_nil, index?_leaf, if_neg (List.cons_ne_nil c tail).symm]
    | cons b key =>
      rw [split, index?_branch_cons, child?_singleton, index?_leaf]
      by_cases hb : b = c
      · subst hb
        simp [index?_leaf]
      · simp [hb]

end Entries

/-! ## Insertion -/

theorem insertAt_empty (tail : Bytes) (entry : Nat) :
    insertAt tail entry empty = .ok (split tail entry) := by
  cases tail with
  | nil => rw [empty, insertAt]; rfl
  | cons b tail =>
    have hrank : (∅ : ByteSet).rank b = 0 :=
      Nat.le_zero.1 (ByteSet.size_empty ▸ ByteSet.rank_le_size ∅ b)
    rw [empty, insertAt]
    simp only [child?_empty, hrank]
    rfl

/-- A leaf is split by putting its own keyword into an empty branch and then the other one. -/
theorem insertAt_leaf {tail key : Bytes} (entry old : Nat) (hne : tail ≠ key) :
    insertAt key entry (leaf tail old) = insertAt tail old empty >>= insertAt key entry := by
  rw [insertAt, if_neg hne, insertAt_empty]
  rfl

/-- **A keyword that is there already is refused**, and the node is left as it was. -/
theorem insertAt_of_isSome {key : Bytes} {n : Node} (entry : Nat) (h : (n.index? key).isSome) :
    insertAt key entry n = .error ⟨.conflictingKeys, n⟩ := by
  induction key, n using insertAt.induct entry with
  | case1 tail old => rw [insertAt, if_pos rfl]
  | case2 key tail old hne =>
    rw [index?_leaf, if_neg (Ne.symm hne)] at h
    cases h
  | case3 set children old => rw [insertAt]
  | case4 set children =>
    rw [index?_branch_nil] at h
    cases h
  | case5 set children terminal b rest child hchild child' htaken ih =>
    rw [index?_branch_cons, hchild, Option.bind_some] at h
    rw [ih h] at htaken
    cases htaken
  | case6 set children terminal b rest child hchild thrown hthrown ih =>
    rw [index?_branch_cons, hchild, Option.bind_some] at h
    rw [insertAt]
    simp only [hchild, ih h, set_rank_of_child? hchild]
  | case7 set children terminal b rest hchild =>
    rw [index?_branch_cons, hchild] at h
    cases h

/-- **Any other keyword is taken.** Its entry is added, and the others stay. -/
theorem exists_insertAt_of_eq_none {key : Bytes} {n : Node} (entry : Nat) (hn : n.Dense)
    (h : n.index? key = none) : ∃ n', insertAt key entry n = .ok n' ∧ n'.Dense ∧
      ∀ k, n'.index? k = if k = key then some entry else n.index? k := by
  induction key, n using insertAt.induct entry with
  | case1 tail old =>
    rw [index?_leaf, if_pos rfl] at h
    cases h
  | case2 key tail old hne ih =>
    obtain ⟨n', hinsert, hdense, hmap⟩ := ih (dense_split tail old) (by rwa [index?_split])
    refine ⟨n', ?_, hdense, fun k => ?_⟩
    · rw [insertAt, if_neg hne, hinsert]
    · rw [hmap, index?_split]
  | case3 set children old =>
    rw [index?_branch_nil] at h
    cases h
  | case4 set children =>
    refine ⟨branch set children (some entry), by rw [insertAt], ?_, fun k => ?_⟩
    · cases hn with
      | branch _ hlength hchildren => exact .branch _ hlength hchildren
    · cases k with
      | nil => rw [index?_branch_nil, if_pos rfl]
      | cons c k => rw [index?_branch_cons, if_neg (List.cons_ne_nil c k), index?_branch_cons]
  | case5 set children terminal b rest child hchild child' htaken ih =>
    rw [index?_branch_cons, hchild, Option.bind_some] at h
    obtain ⟨new, hnew, hdense, hmap⟩ := ih (hn.of_child? hchild).2 h
    refine ⟨branch set (children.set (set.rank b) new) terminal, ?_, hn.setChild hdense _,
      fun k => ?_⟩
    · rw [insertAt]
      simp only [hchild, hnew]
    · cases k with
      | nil => rw [index?_branch_nil, index?_branch_nil, if_neg (List.cons_ne_nil b rest).symm]
      | cons c k =>
        rw [index?_branch_cons, index?_branch_cons,
          child?_set hn.length_eq new c (mem_of_child?_eq_some hchild)]
        by_cases hc : c = b
        · subst hc
          simp [hchild, hmap]
        · simp [hc]
  | case6 set children terminal b rest child hchild thrown hthrown ih =>
    rw [index?_branch_cons, hchild, Option.bind_some] at h
    obtain ⟨new, hnew, -⟩ := ih (hn.of_child? hchild).2 h
    rw [hthrown] at hnew
    cases hnew
  | case7 set children terminal b rest hchild =>
    have hb : b ∉ set := child?_eq_none_iff.1 hchild
    refine ⟨branch (set.insert b) (children.insertIdx (set.rank b) (leaf rest entry)) terminal, ?_,
      hn.insertChild hb (.leaf rest entry), fun k => ?_⟩
    · rw [insertAt]
      simp only [hchild]
    · cases k with
      | nil => rw [index?_branch_nil, index?_branch_nil, if_neg (List.cons_ne_nil b rest).symm]
      | cons c k =>
        rw [index?_branch_cons, index?_branch_cons,
          child?_insertIdx hn.length_eq (leaf rest entry) c hb]
        by_cases hc : c = b
        · subst hc
          simp [hchild, index?_leaf]
        · simp [hc]

end Node

end WhitespaceAsm.ByteTrie

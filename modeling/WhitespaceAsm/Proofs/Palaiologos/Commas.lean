import WhitespaceAsm.Proofs.FlagSet
import WhitespaceAsm.Proofs.Palaiologos.Parse

/-!
# The commas of Palaiologos programs

A comma is right when it stands alone between two arguments. Otherwise it is flagged, and the flag
tells where it stands: behind another comma, or not between two arguments at all.

* `comma?`, `commas`: the flags of commas; `CommaPlace`, **`placedCommas`**: the commas of a
  statement with their places;
* `commas_markStray`, `commas_markRepeated_false`: what marking does to the flags;
  **`marked_markCommas`**: what it does for an instruction.
-/

namespace WhitespaceAsm.Palaiologos

/-! ## The places of commas -/

/-- **Where a comma stands.** -/
inductive CommaPlace
  /-- It is the first one between two arguments. -/
  | between
  /-- There is another one before it between the same arguments. -/
  | repeated
  /-- It does not stand between two arguments. -/
  | stray
deriving DecidableEq, Repr

/-- What is wrong with a comma at a place. -/
def CommaPlace.errors : CommaPlace → FlagSet ArgSepError
  | between => ∅
  | repeated => {.multiple}
  | stray => {.notBetweenArguments}

/-- The flags of a comma. -/
def comma? (t : Token) : Option (FlagSet ArgSepError) :=
  match t.payload? with
  | some (.argSep errors) => some errors
  | _ => none

/-- The flags of the commas among some tokens. -/
def commas (ts : List Token) : List (FlagSet ArgSepError) := ts.filterMap comma?

def strayCommas (ts : List Token) : List (CommaPlace × FlagSet ArgSepError) :=
  (commas ts).map (.stray, ·)

/-- The commas between two arguments. -/
def sepCommas (ts : List Token) : List (CommaPlace × FlagSet ArgSepError) :=
  match commas ts with
  | [] => []
  | first :: others => (.between, first) :: others.map (.repeated, ·)

/-- The commas before each argument. -/
def argCommas : List Arg → List (CommaPlace × FlagSet ArgSepError)
  | [] => []
  | first :: others => strayCommas first.sep ++ others.flatMap (sepCommas ·.sep)

/-- **The commas of a statement** in source order, each with its place and its flags. -/
def placedCommas : Statement → List (CommaPlace × FlagSet ArgSepError)
  | .inst i => strayCommas i.before ++ argCommas i.args ++ strayCommas i.after
  | .emptyLine ts => strayCommas ts

/-- **Every comma has the flags of its place.** -/
def Marked (cs : List (CommaPlace × FlagSet ArgSepError)) : Prop := ∀ c ∈ cs, c.2 = c.1.errors

theorem CommaPlace.errors_inj {p q : CommaPlace} : p.errors = q.errors ↔ p = q := by
  cases p <;> cases q <;> decide

theorem commas_append (ts us : List Token) : commas (ts ++ us) = commas ts ++ commas us :=
  List.filterMap_append

theorem comma?_eq_some {t : Token} {errors : FlagSet ArgSepError} :
    comma? t = some errors ↔ ∃ text, t = .plain text (.argSep errors) := by
  constructor
  · intro h
    cases t with
    | plain text p =>
      cases p with
      | argSep _ => exact ⟨text, by rw [Option.some.inj h]⟩
      | _ => cases h
    | quoted text inner quotes terminated => cases h
    | spliced text parts word => cases h
  · rintro ⟨text, rfl⟩
    rfl

theorem exists_comma? {t : Token} (h : t.kind = .argSep) : ∃ errors, comma? t = some errors := by
  cases t with
  | plain text p =>
    cases p with
    | argSep errors => exact ⟨errors, rfl⟩
    | _ => cases h
  | quoted text inner quotes terminated => cases h
  | spliced text parts word => cases h

theorem comma?_eq_none {t : Token} (h : t.kind ≠ .argSep) : comma? t = none := by
  refine Option.eq_none_iff_forall_ne_some.2 fun errors ht => ?_
  obtain ⟨text, rfl⟩ := comma?_eq_some.1 ht
  exact h rfl

theorem commas_eq_nil {ts : List Token} (h : ∀ t ∈ ts, t.kind ≠ .argSep) : commas ts = [] :=
  List.filterMap_eq_nil_iff.2 fun t ht => comma?_eq_none (h t ht)

theorem map_snd_strayCommas (ts : List Token) : (strayCommas ts).map Prod.snd = commas ts := by
  rw [strayCommas, List.map_map]
  exact List.map_id _

theorem map_snd_sepCommas (ts : List Token) : (sepCommas ts).map Prod.snd = commas ts := by
  unfold sepCommas
  split
  · next h => rw [h, List.map_nil]
  · next first others h =>
    rw [h, List.map_cons, List.map_map]
    exact congrArg (List.cons first) (List.map_id _)

/-! ## Marking -/

theorem kind_markComma (error : ArgSepError) (t : Token) : (markComma error t).kind = t.kind := by
  unfold markComma
  split <;> rfl

theorem comma?_markComma (error : ArgSepError) (t : Token) :
    comma? (markComma error t) = (comma? t).map (· ∪ {error}) := by
  unfold markComma
  split
  · rfl
  · next h =>
    have hnone : comma? t = none := by
      refine Option.eq_none_iff_forall_ne_some.2 fun errors ht => ?_
      obtain ⟨text, rfl⟩ := comma?_eq_some.1 ht
      exact h text errors rfl
    rw [hnone]
    rfl

theorem commas_markStray (ts : List Token) :
    commas (markStray ts) = (commas ts).map (· ∪ {.notBetweenArguments}) := by
  rw [commas, markStray, List.filterMap_map, commas, List.map_filterMap]
  exact List.filterMap_congr fun t _ => comma?_markComma _ t

theorem commas_markRepeated_true (ts : List Token) :
    commas (markRepeated true ts) = (commas ts).map (· ∪ {.multiple}) := by
  induction ts with
  | nil => rfl
  | cons t ts ih =>
    rw [markRepeated]
    by_cases h : t.kind = .argSep
    · obtain ⟨errors, ht⟩ := exists_comma? h
      have hmarked : comma? (markComma .multiple t) = some (errors ∪ {.multiple}) := by
        rw [comma?_markComma, ht]
        rfl
      rw [if_pos h, if_pos rfl, commas, List.filterMap_cons_some hmarked, commas,
        List.filterMap_cons_some ht, List.map_cons]
      exact congrArg _ ih
    · rw [if_neg h, commas, List.filterMap_cons_none (comma?_eq_none h), commas,
        List.filterMap_cons_none (comma?_eq_none h)]
      exact ih

theorem commas_markRepeated_false (ts : List Token) : commas (markRepeated false ts)
    = match commas ts with
      | [] => []
      | first :: others => first :: others.map (· ∪ {.multiple}) := by
  induction ts with
  | nil => rfl
  | cons t ts ih =>
    rw [markRepeated]
    by_cases h : t.kind = .argSep
    · obtain ⟨errors, ht⟩ := exists_comma? h
      rw [if_pos h, if_neg Bool.false_ne_true, commas, List.filterMap_cons_some ht, commas,
        List.filterMap_cons_some ht]
      exact congrArg _ (commas_markRepeated_true ts)
    · rw [if_neg h, commas, List.filterMap_cons_none (comma?_eq_none h), commas,
        List.filterMap_cons_none (comma?_eq_none h)]
      exact ih

/-- No comma has a flag, as it is when the tokens have just been read. -/
def Unmarked (ts : List Token) : Prop := ∀ errors ∈ commas ts, errors = ∅

theorem marked_markStray {ts : List Token} (h : Unmarked ts) :
    Marked (strayCommas (markStray ts)) := by
  intro c hc
  rw [strayCommas, commas_markStray, List.map_map] at hc
  obtain ⟨errors, herrors, rfl⟩ := List.mem_map.1 hc
  obtain rfl := h errors herrors
  exact FlagSet.empty_union _

theorem marked_markRepeated {ts : List Token} (h : Unmarked ts) :
    Marked (sepCommas (markRepeated false ts)) := by
  rw [Unmarked] at h
  rw [sepCommas, commas_markRepeated_false]
  cases hcommas : commas ts with
  | nil => simp [Marked]
  | cons first others =>
    rw [hcommas] at h
    obtain ⟨rfl, hothers⟩ := List.forall_mem_cons.1 h
    refine List.forall_mem_cons.2 ⟨rfl, fun c hc => ?_⟩
    rw [List.map_map] at hc
    obtain ⟨errors, herrors, rfl⟩ := List.mem_map.1 hc
    obtain rfl := hothers errors herrors
    exact FlagSet.empty_union _

/-- **The commas of an instruction get the flags of their places.** Those before the head have them
already. -/
theorem marked_markCommas {i : Inst} (hbefore : Marked (strayCommas i.before))
    (hargs : ∀ a ∈ i.args, Unmarked a.sep) (hafter : Unmarked i.after) :
    Marked (placedCommas (.inst (markCommas i))) := by
  have hmarked : Marked (argCommas (markCommas i).args) := by
    rw [markCommas]
    cases hi : i.args with
    | nil => simp [argCommas, Marked]
    | cons first others =>
      rw [hi] at hargs
      obtain ⟨hfirst, hothers⟩ := List.forall_mem_cons.1 hargs
      refine List.forall_mem_append.2 ⟨marked_markStray hfirst, fun c hc => ?_⟩
      obtain ⟨a, ha, hc⟩ := List.mem_flatMap.1 hc
      obtain ⟨b, hb, rfl⟩ := List.mem_map.1 ha
      exact marked_markRepeated (hothers b hb) c hc
  exact List.forall_mem_append.2
    ⟨List.forall_mem_append.2 ⟨hbefore, hmarked⟩, marked_markStray hafter⟩

theorem Unmarked.mono {ts us : List Token} (h : Unmarked ts) (hus : us ⊆ ts) : Unmarked us := by
  intro errors herrors
  obtain ⟨t, ht, hcomma⟩ := List.mem_filterMap.1 herrors
  exact h errors (List.mem_filterMap.2 ⟨t, hus ht, hcomma⟩)

theorem resolveInst_frame (i : Inst) : (resolveInst i).before = i.before ∧
    (resolveInst i).head.kind = i.head.kind ∧ (resolveInst i).args = i.args ∧
    (resolveInst i).after = i.after := by
  obtain ⟨hbefore, hargs, hafter, -⟩ := Inst.resolve_frame i (mnemonics.get? i.head.text)
  have hhead := Inst.kind_head_resolve i (mnemonics.get? i.head.text)
  unfold resolveInst
  dsimp only
  split
  · split
    · exact ⟨hbefore, hhead, hargs, hafter⟩
    · exact ⟨hbefore, hhead, hargs, hafter⟩
  · exact ⟨rfl, rfl, rfl, rfl⟩

theorem placedCommas_resolveInst (i : Inst) :
    placedCommas (.inst (resolveInst i)) = placedCommas (.inst i) := by
  obtain ⟨hbefore, -, hargs, hafter⟩ := resolveInst_frame i
  rw [placedCommas, placedCommas, hbefore, hargs, hafter]

end WhitespaceAsm.Palaiologos

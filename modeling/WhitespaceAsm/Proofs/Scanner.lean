import Mathlib.Data.List.Induction
import WhitespaceAsm.Proofs.Comment
import WhitespaceAsm.Proofs.Position
import WhitespaceAsm.Proofs.Utf8
import WhitespaceAsm.Scanner

/-!
# Where a scanner can stand

Whatever a caller does with a scanner, the line and the column of a position follow from its offset
alone. Most operations read on, up to a place that is not behind the limit; one goes back to a
position that the scanner has had, and one moves the limit to the end of the source.

* **`Scanner.Operation`**, `Operation.apply`: everything that moves a scanner; `Scanner.Course`,
  **`Scanner.run`**: a scanner at work with the positions it has had;
* `Scanner.Over`, `Over.readsOn`, **`Over.apply`**: what every operation keeps;
* **`Scanner.positions_run`**: the positions after any operations.
-/

namespace WhitespaceAsm

/-! ## Positions of a source -/

/-- **The position belongs to a source**, up to a limit. -/
structure Pos.Within (u : ColumnUnit) (source : Bytes) (limit : Nat) (p : Pos) : Prop where
  offset_le : p.offset ≤ limit
  eq_ofOffset : p = .ofOffset u source p.offset

theorem Pos.Within.mono {u : ColumnUnit} {source : Bytes} {limit limit' : Nat} {p : Pos}
    (h : p.Within u source limit) (hle : limit ≤ limit') : p.Within u source limit' :=
  ⟨Nat.le_trans h.offset_le hle, h.eq_ofOffset⟩

namespace Scanner

/-! ## Operations -/

/-- **Everything that moves a scanner.** To read up to a condition is to read while it fails. The
operations on bytes and those on code points may be mixed. -/
inductive Operation
  | startNext
  /-- Back to a position that the scanner has had, counted from the first one on. -/
  | backtrack (n : Nat)
  | bumpBytes (n : Nat)
  | bump (marker : Bytes)
  | bumpLine
  | lineComment (markerLength : Nat)
  | blockComment (style : BlockCommentStyle)
  | nextByte
  | bumpByteIf (p : UInt8 → Bool)
  | bumpBytesWhile (p : UInt8 → Bool)
  | nextUnit
  | nextChar
  | bumpCharIf (p : Nat → Bool)
  | bumpCharsWhile (p : Nat → Bool)
  | takeInvalid

/-- The scanner after an operation, where `visited` are the positions it has had. An operation that
does not apply leaves it as it is. -/
def Operation.apply (visited : List Pos) (s : Scanner) : Operation → Scanner
  | startNext => s.startNext
  | backtrack n => (visited[n]?.map s.backtrack).getD s
  | bumpBytes n => s.bumpBytes n
  | bump marker => (s.bump? marker).getD s
  | bumpLine => s.bumpLine.2
  | lineComment markerLength => (s.lineComment markerLength).2
  | blockComment style => (s.blockComment style).2
  | nextByte => s.nextByte.2
  | bumpByteIf p => (s.bumpByteIf? p).getD s
  | bumpBytesWhile p => (s.bumpBytesWhile p).2
  | nextUnit => s.nextUnit.2
  | nextChar => s.nextChar.2
  | bumpCharIf p => (s.bumpCharIf? p).getD s
  | bumpCharsWhile p => (s.bumpCharsWhile p).2
  | takeInvalid => (s.takeInvalid?.map Prod.snd).getD s

/-- **A scanner at work** with the positions it has had, the present one last. -/
structure Course where
  scanner : Scanner
  visited : List Pos

def Course.step (c : Course) (op : Operation) : Course :=
  let s := op.apply c.visited c.scanner
  { scanner := s, visited := c.visited ++ [s.pos] }

/-- **A scanner after some operations.** -/
def run (s : Scanner) (ops : List Operation) : Course := ops.foldl Course.step ⟨s, [s.pos]⟩

/-- A scanner over a source, by what its columns count. -/
def ofUnit (u : ColumnUnit) (source : Bytes) : Scanner :=
  match u with
  | .byte => ofBytes source
  | .codePoint => ofChars source

/-! ## Reading on -/

/-- **The scanner has read on**, up to some place that is not behind the limit. -/
def ReadsOn (s t : Scanner) : Prop := ∃ n ≤ s.limit, t = s.advanceTo n

theorem length_rest_le (s : Scanner) : s.rest.length ≤ s.limit - s.pos.offset :=
  List.length_take_le _ _

section ReadsOn

variable {s : Scanner}

theorem one_le_length_rest {b : UInt8} (hb : b ∈ s.peekByte?) : 1 ≤ s.rest.length := by
  obtain ⟨rest, hrest⟩ := List.head?_eq_some_iff.1 hb
  rw [hrest, List.length_cons]
  exact Nat.le_add_left 1 _

theorem length_peekUnit?_le {c : Utf8.Unit} (hc : c ∈ s.peekUnit?) : c.length ≤ s.rest.length := by
  rw [peekUnit?] at hc
  split at hc
  · cases hc
  · obtain rfl := Option.mem_some.1 hc
    cases hrest : s.rest with
    | nil => simp [Utf8.decode, Utf8.Unit.illFormed]
    | cons b rest => exact Utf8.decode_length_le b rest

variable (h : s.pos.offset ≤ s.limit)

include h

theorem readsOn_self : s.ReadsOn s := by
  refine ⟨s.pos.offset, h, ?_⟩
  rw [advanceTo, Nat.sub_self, List.take_zero]
  rfl

theorem readsOn_of_length_le {n : Nat} (hn : n ≤ s.rest.length) :
    s.ReadsOn (s.advanceTo (s.pos.offset + n)) := by
  refine ⟨_, ?_, rfl⟩
  have := s.length_rest_le
  omega

theorem readsOn_of_isPrefix {x : Bytes} (hx : x <+: s.rest) :
    s.ReadsOn (s.advanceTo (s.pos.offset + x.length)) :=
  readsOn_of_length_le h hx.length_le

theorem readsOn_getD {t? : Option Scanner} (ht : ∀ t ∈ t?, s.ReadsOn t) :
    s.ReadsOn (t?.getD s) := by
  cases t? with
  | none => exact readsOn_self h
  | some t => exact ht t rfl

theorem readsOn_bump? (marker : Bytes) : ∀ t ∈ s.bump? marker, s.ReadsOn t := by
  intro t ht
  rw [bump?] at ht
  split at ht
  · next hmarker =>
    obtain rfl := Option.mem_some.1 ht
    exact readsOn_of_isPrefix h (List.isPrefixOf_iff_prefix.1 hmarker)
  · cases ht

theorem readsOn_bumpLine : s.ReadsOn s.bumpLine.2 := readsOn_of_isPrefix h (takeLine_isPrefix _)

theorem readsOn_blockComment (style : BlockCommentStyle) : s.ReadsOn (s.blockComment style).2 :=
  readsOn_of_isPrefix h (style.text_read_isPrefix _)

/-! ### Bytes -/

theorem readsOn_nextByte : s.ReadsOn s.nextByte.2 := by
  rw [nextByte]
  split
  · next b hb => exact readsOn_of_length_le h (one_le_length_rest hb)
  · exact readsOn_self h

theorem readsOn_bumpByteIf? (p : UInt8 → Bool) : ∀ t ∈ s.bumpByteIf? p, s.ReadsOn t := by
  intro t ht
  rw [bumpByteIf?] at ht
  split at ht
  · next hp =>
    obtain rfl := Option.mem_some.1 ht
    obtain ⟨b, hb, -⟩ := (Option.any_eq_true p _).1 hp
    exact readsOn_of_length_le h (one_le_length_rest hb)
  · cases ht

theorem readsOn_bumpBytesWhile (p : UInt8 → Bool) : s.ReadsOn (s.bumpBytesWhile p).2 :=
  readsOn_of_isPrefix h (List.takeWhile_prefix p)

/-! ### Code points -/

theorem readsOn_nextUnit : s.ReadsOn s.nextUnit.2 := by
  rw [nextUnit]
  split
  · next c hc => exact readsOn_of_length_le h (length_peekUnit?_le hc)
  · exact readsOn_self h

theorem readsOn_nextChar : s.ReadsOn s.nextChar.2 := by
  rw [nextChar]
  split
  · next c hc => exact readsOn_of_length_le h (length_peekUnit?_le hc)
  · exact readsOn_self h

theorem readsOn_bumpCharIf? (p : Nat → Bool) : ∀ t ∈ s.bumpCharIf? p, s.ReadsOn t := by
  intro t ht
  rw [bumpCharIf?] at ht
  split at ht
  · next c hc =>
    split at ht
    · obtain rfl := Option.mem_some.1 ht
      exact readsOn_of_length_le h (length_peekUnit?_le hc)
    · cases ht
  · cases ht

theorem readsOn_bumpCharsWhile (p : Nat → Bool) : s.ReadsOn (s.bumpCharsWhile p).2 :=
  readsOn_of_isPrefix h (Utf8.takeUnits_isPrefix _ _)

omit h in
theorem readsOn_bumpBytes (n : Nat) : s.ReadsOn (s.bumpBytes n) :=
  ⟨_, Nat.min_le_right _ _, rfl⟩

end ReadsOn

/-! ## What every operation keeps -/

variable {u : ColumnUnit} {source : Bytes}

/-- **A scanner over a source** with both of its positions there. -/
structure Over (u : ColumnUnit) (source : Bytes) (s : Scanner) : Prop where
  source_eq : s.source = source
  columns_eq : s.columns = u
  limit_le : s.limit ≤ source.length
  start : s.start.Within u source s.limit
  pos : s.pos.Within u source s.limit

namespace Over

variable {s t : Scanner}

theorem readsOn (h : s.Over u source) (hread : s.ReadsOn t) :
    t.Over u source ∧ t.limit = s.limit := by
  obtain ⟨n, hn, rfl⟩ := hread
  refine ⟨⟨h.source_eq, h.columns_eq, h.limit_le, h.start, ?_⟩, rfl⟩
  have hoffset := h.pos.offset_le
  have hlimit := h.limit_le
  have hstart : s.pos = Pos.advance u {} (source.take s.pos.offset) := by
    rw [Pos.advance_take (by omega)]
    exact h.pos.eq_ofOffset
  have hpos : (s.advanceTo n).pos
      = Pos.advance u {} (source.take (s.pos.offset + (n - s.pos.offset))) := by
    rw [List.take_add, Pos.advance_append, ← hstart, advanceTo, h.source_eq, h.columns_eq]
  rw [hpos, Pos.advance_take (by omega)]
  refine ⟨?_, rfl⟩
  change s.pos.offset + (n - s.pos.offset) ≤ s.limit
  omega

theorem startNext (h : s.Over u source) : s.startNext.Over u source :=
  ⟨h.source_eq, h.columns_eq, h.limit_le, h.pos, h.pos⟩

theorem backtrack (h : s.Over u source) {p : Pos} (hp : p.Within u source s.limit) :
    (s.backtrack p).Over u source :=
  ⟨h.source_eq, h.columns_eq, h.limit_le, h.start, hp⟩

theorem takeInvalid? (h : s.Over u source) : ∀ t ∈ s.takeInvalid?.map Prod.snd,
    t.Over u source ∧ s.limit ≤ t.limit := by
  intro t ht
  obtain ⟨⟨token, done⟩, hdone, rfl⟩ := Option.map_eq_some_iff.1 ht
  rw [Scanner.takeInvalid?] at hdone
  split at hdone
  · cases hdone
    have hlength : s.source.length = source.length := congrArg List.length h.source_eq
    have hlimit : s.limit ≤ s.source.length := hlength ▸ h.limit_le
    let whole : Scanner := { s with limit := s.source.length }
    have hwhole : whole.Over u source :=
      ⟨h.source_eq, h.columns_eq, hlength.le, h.start.mono hlimit, h.pos.mono hlimit⟩
    exact ⟨(hwhole.readsOn ⟨_, Nat.le_refl _, rfl⟩).1, hlimit⟩
  · cases hdone

/-- **An operation keeps a scanner over its source**, and its limit does not go back. -/
theorem apply (h : s.Over u source) {visited : List Pos}
    (hvisited : ∀ p ∈ visited, p.Within u source s.limit) (op : Operation) :
    (op.apply visited s).Over u source ∧ s.limit ≤ (op.apply visited s).limit := by
  have hpos := h.pos.offset_le
  have hread : ∀ {t}, s.ReadsOn t → t.Over u source ∧ s.limit ≤ t.limit := fun ht =>
    ⟨(h.readsOn ht).1, (h.readsOn ht).2.ge⟩
  cases op with
  | startNext => exact ⟨h.startNext, Nat.le_refl _⟩
  | backtrack n =>
    dsimp only [Operation.apply]
    cases hn : visited[n]? with
    | none => exact ⟨h, Nat.le_refl _⟩
    | some p => exact ⟨h.backtrack (hvisited p (List.mem_of_getElem? hn)), Nat.le_refl _⟩
  | bumpBytes n => exact hread (readsOn_bumpBytes n)
  | bump marker => exact hread (readsOn_getD hpos (readsOn_bump? hpos marker))
  | bumpLine => exact hread (readsOn_bumpLine hpos)
  | lineComment markerLength =>
    -- it reads on twice, over the marker and then over the line
    obtain ⟨hmarked, hlimit⟩ := h.readsOn (readsOn_bumpBytes markerLength)
    obtain ⟨hdone, hlimit'⟩ := hmarked.readsOn (readsOn_bumpLine hmarked.pos.offset_le)
    exact ⟨hdone, (hlimit'.trans hlimit).ge⟩
  | blockComment style => exact hread (readsOn_blockComment hpos style)
  | nextByte => exact hread (readsOn_nextByte hpos)
  | bumpByteIf p => exact hread (readsOn_getD hpos (readsOn_bumpByteIf? hpos p))
  | bumpBytesWhile p => exact hread (readsOn_bumpBytesWhile hpos p)
  | nextUnit => exact hread (readsOn_nextUnit hpos)
  | nextChar => exact hread (readsOn_nextChar hpos)
  | bumpCharIf p => exact hread (readsOn_getD hpos (readsOn_bumpCharIf? hpos p))
  | bumpCharsWhile p => exact hread (readsOn_bumpCharsWhile hpos p)
  | takeInvalid =>
    dsimp only [Operation.apply]
    cases htake : s.takeInvalid?.map Prod.snd with
    | none => exact ⟨h, Nat.le_refl _⟩
    | some t => exact h.takeInvalid? t htake

end Over

/-! ## Runs -/

/-- The scanner of a course stands in its source, and so do all positions it has had. -/
structure Course.Sound (u : ColumnUnit) (source : Bytes) (c : Course) : Prop where
  scanner : c.scanner.Over u source
  visited : ∀ p ∈ c.visited, p.Within u source c.scanner.limit

/-- **One operation**: the positions of before are not behind the new limit either. -/
theorem Course.Sound.step {c : Course} (h : c.Sound u source) (op : Operation) :
    (c.step op).Sound u source := by
  obtain ⟨hscanner, hlimit⟩ := h.scanner.apply h.visited op
  refine ⟨hscanner, fun p hp => ?_⟩
  obtain hp | hp := List.mem_append.1 hp
  · exact (h.visited p hp).mono hlimit
  · obtain rfl := List.mem_singleton.1 hp
    exact hscanner.pos

theorem run_concat (s : Scanner) (ops : List Operation) (op : Operation) :
    s.run (ops ++ [op]) = (s.run ops).step op := List.foldl_concat _ _ _ _

/-- **Any number of operations**, one after another. -/
theorem sound_run {s : Scanner} (h : s.Over u source) (ops : List Operation) :
    (s.run ops).Sound u source := by
  induction ops using List.reverseRecOn with
  | nil => exact ⟨h, List.forall_mem_singleton.2 h.pos⟩
  | append_singleton ops op ih =>
    rw [run_concat]
    exact ih.step op

theorem over_ofUnit (u : ColumnUnit) (source : Bytes) : (ofUnit u source).Over u source := by
  have hzero : ∀ limit, ({} : Pos).Within u source limit := fun limit =>
    ⟨Nat.zero_le _, (Pos.advance_take (Nat.zero_le _)).symm ▸ rfl⟩
  cases u with
  | byte => exact ⟨rfl, rfl, Nat.le_refl _, hzero _, hzero _⟩
  | codePoint => exact ⟨rfl, rfl, Utf8.validLength_le source, hzero _, hzero _⟩

/-- **Where a scanner can stand**, after any operations: within the limit, at the line and the
column of its offset. -/
theorem positions_run (u : ColumnUnit) (source : Bytes) (ops : List Operation) :
    let s := ((ofUnit u source).run ops).scanner
    s.source = source ∧ s.limit ≤ source.length ∧
      s.pos.offset ≤ s.limit ∧ s.pos = Pos.ofOffset u source s.pos.offset ∧
      s.start.offset ≤ s.limit ∧ s.start = Pos.ofOffset u source s.start.offset := by
  intro s
  have h := (sound_run (over_ofUnit u source) ops).scanner
  exact ⟨h.source_eq, h.limit_le, h.pos.offset_le, h.pos.eq_ofOffset, h.start.offset_le,
    h.start.eq_ofOffset⟩

end Scanner

end WhitespaceAsm

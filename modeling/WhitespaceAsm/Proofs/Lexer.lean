import WhitespaceAsm.Proofs.Lexicon
import WhitespaceAsm.Proofs.Position

/-!
# The tokens that a lexer hands out

What a lexer still has to hand out is determined by the place that it has reached. Each call takes
the first of these tokens, moves over its text, and returns the end of the input when there is none.

* `Scanner.WellPlaced`, **`Lexer.upcoming`**: the places a lexer can reach, and the tokens that it
  still has to hand out;
* **`Lexer.call_nextToken`**: one call; `Lexer.after_spec`: any number of calls;
* **`Lexicon.lexer_reads_source`**: the tokens of a program and where they start.
-/

namespace WhitespaceAsm

/-! ## Places -/

namespace Scanner

@[simp]
theorem limit_advanceTo (s : Scanner) (n : Nat) : (s.advanceTo n).limit = s.limit := rfl

@[simp]
theorem start_advanceTo (s : Scanner) (n : Nat) : (s.advanceTo n).start = s.start := rfl

/-- **A place that a lexer can reach** in its source. -/
structure WellPlaced (s : Scanner) : Prop where
  offset_le : s.pos.offset ≤ s.limit
  limit_le : s.limit ≤ s.source.length

theorem WellPlaced.startNext {s : Scanner} (h : s.WellPlaced) : s.startNext.WellPlaced :=
  ⟨h.offset_le, h.limit_le⟩

theorem rest_length {s : Scanner} (h : s.WellPlaced) :
    s.rest.length = s.limit - s.pos.offset := by
  have := h.offset_le
  have := h.limit_le
  rw [rest, List.length_take, List.length_drop]
  omega

section Step

variable {s : Scanner} (h : s.WellPlaced) {text : Bytes} (ht : text <+: s.rest)

include h ht

theorem take_drop_source : (s.source.drop s.pos.offset).take text.length = text := by
  have hlen := ht.length_le
  rw [rest_length h] at hlen
  have htake := List.prefix_iff_eq_take.1 ht
  rw [rest, List.take_take, Nat.min_eq_left hlen] at htake
  exact htake.symm

/-- **A step over a text** that the rest begins with. -/
theorem pos_advanceTo :
    (s.advanceTo (s.pos.offset + text.length)).pos = s.pos.advance s.columns text := by
  rw [advanceTo, Nat.add_sub_cancel_left, take_drop_source h ht]

theorem offset_advanceTo :
    (s.advanceTo (s.pos.offset + text.length)).pos.offset = s.pos.offset + text.length := by
  rw [pos_advanceTo h ht, Pos.offset_advance]

theorem wellPlaced_advanceTo : (s.advanceTo (s.pos.offset + text.length)).WellPlaced := by
  refine ⟨?_, h.limit_le⟩
  have hlen := ht.length_le
  have hle := h.offset_le
  rw [rest_length h] at hlen
  rw [offset_advanceTo h ht, limit_advanceTo]
  omega

theorem rest_advanceTo : s.rest = text ++ (s.advanceTo (s.pos.offset + text.length)).rest := by
  have hdrop : (s.advanceTo (s.pos.offset + text.length)).rest = s.rest.drop text.length := by
    rw [rest, offset_advanceTo h ht, rest, List.drop_take, List.drop_drop, Nat.sub_add_eq]
    rfl
  rw [hdrop, append_drop_length ht]

theorem text_advanceTo (hstart : s.start = s.pos) :
    (s.advanceTo (s.pos.offset + text.length)).text = text := by
  rw [Scanner.text, offset_advanceTo h ht, start_advanceTo, hstart, slice, if_neg (by omega),
    Nat.add_sub_cancel_left]
  exact take_drop_source h ht

end Step

theorem takeInvalid?_eq_some {s : Scanner} (hoffset : s.pos.offset = s.limit)
    (hstart : s.start = s.pos) (htail : s.limit < s.source.length) :
    let tail := s.source.drop s.limit
    ∃ done : Scanner,
      s.takeInvalid? = some (.plain tail (.error .invalidUtf8 (Utf8.decode tail).length), done) ∧
      done.WellPlaced ∧ done.pos = s.pos.advance s.columns tail ∧ done.start = s.start ∧
      done.columns = s.columns ∧ done.rest = [] ∧ done.source.drop done.limit = [] := by
  intro tail
  let done := { s with limit := s.source.length }.advanceTo s.source.length
  -- with the end of the source as its limit the scanner has the ill-formed bytes as its rest
  let whole : Scanner := { s with limit := s.source.length }
  have hplaced : whole.WellPlaced := ⟨Nat.le_trans hoffset.le htail.le, Nat.le_refl _⟩
  have hrest : whole.rest = tail := by
    rw [rest]
    change (s.source.drop s.pos.offset).take (s.source.length - s.pos.offset) = tail
    rw [hoffset, List.take_of_length_le (by rw [List.length_drop])]
  have htext : tail <+: whole.rest := by simp only [hrest, List.prefix_rfl]
  have hdone : whole.advanceTo (whole.pos.offset + tail.length) = done := by
    have hend : s.pos.offset + (s.source.drop s.limit).length = s.source.length := by
      rw [List.length_drop]
      omega
    rw [show whole.pos.offset + tail.length = s.source.length from hend]
  have htoken := text_advanceTo hplaced htext hstart
  have hpos := pos_advanceTo hplaced htext
  have hdoneplaced := wellPlaced_advanceTo hplaced htext
  have hsplit := rest_advanceTo hplaced htext
  rw [hdone] at htoken hpos hdoneplaced hsplit
  refine ⟨done, ?_, hdoneplaced, hpos, rfl, rfl, ?_, List.drop_length⟩
  · have hatEnd : (s.atEnd && s.hasInvalidTail) = true := by
      rw [Bool.and_eq_true]
      exact ⟨decide_eq_true hoffset.ge, decide_eq_true htail⟩
    rw [takeInvalid?, if_pos hatEnd]
    change some (Token.plain done.text _, done) = _
    rw [htoken]
  · rw [hrest] at hsplit
    exact List.append_cancel_left (hsplit.symm.trans (List.append_nil tail).symm)

theorem takeInvalid?_eq_none {s : Scanner} (h : s.source.length ≤ s.limit) :
    s.takeInvalid? = none := by
  have htail : s.hasInvalidTail = false := decide_eq_false (Nat.not_lt.2 h)
  rw [takeInvalid?, htail, Bool.and_false, if_neg Bool.false_ne_true]

end Scanner

/-! ## Calls -/

namespace Lexer

/-- **The tokens that a lexer still has to hand out.** -/
def upcoming (l : Lexer) : List Token :=
  tokenize l.next l.scanner.rest
    ++ Burghard.invalidTail (l.scanner.source.drop l.scanner.limit)

/-- **What a call does**: it returns a token, and the lexer has moved over its text. -/
structure Call (l : Lexer) (t : Token) (done : Lexer) : Prop where
  token : t = l.upcoming.headD Token.endOfInput
  upcoming : done.upcoming = l.upcoming.tail
  start : done.tokenStart = l.scanner.pos
  pos : done.scanner.pos = l.scanner.pos.advance l.scanner.columns t.text
  wellPlaced : done.scanner.WellPlaced
  next : done.next = l.next
  columns : done.scanner.columns = l.scanner.columns

theorem nextToken_cons {l : Lexer} {b : UInt8} {rest : Bytes} (hrest : l.scanner.rest = b :: rest) :
    l.nextToken = (l.next b rest, { l with
      scanner := l.scanner.startNext.advanceTo
        (l.scanner.pos.offset + (l.next b rest).text.length) }) := by
  unfold nextToken
  dsimp only
  split
  · next b' rest' h =>
    obtain ⟨rfl, rfl⟩ := List.cons.inj (hrest.symm.trans h)
    rfl
  · next h => cases hrest.symm.trans h

theorem nextToken_nil {l : Lexer} (hrest : l.scanner.rest = []) :
    l.nextToken = match l.scanner.startNext.takeInvalid? with
      | some (t, done) => (t, { l with scanner := done })
      | none => (l.scanner.startNext.wrap .endOfInput,
        { l with scanner := l.scanner.startNext }) := by
  unfold nextToken
  dsimp only
  split
  · next b rest h => cases hrest.symm.trans h
  · rfl

section Call

variable {l : Lexer} (h : l.scanner.WellPlaced)

include h

theorem call_of_rest_cons (hnext : ReadsStart l.next) {b : UInt8} {rest : Bytes}
    (hrest : l.scanner.rest = b :: rest) : l.Call l.nextToken.1 l.nextToken.2 := by
  let s := l.scanner.startNext
  let t := l.next b rest
  have hs : s.WellPlaced := h.startNext
  have hsrest : s.rest = b :: rest := hrest
  have htext : t.text <+: s.rest := by rw [hsrest]; exact (hnext b rest).text_isPrefix
  have hcall : l.nextToken
      = (t, { l with scanner := s.advanceTo (s.pos.offset + t.text.length) }) :=
    nextToken_cons hrest
  have hupcoming : l.upcoming = t :: l.nextToken.2.upcoming := by
    have hsplit := Scanner.rest_advanceTo hs htext
    rw [hsrest] at hsplit
    rw [hcall, upcoming, upcoming, hrest, tokenize_eq hnext hsplit]
    rfl
  rw [hcall] at hupcoming ⊢
  exact {
    token := by rw [hupcoming]; rfl
    upcoming := by rw [hupcoming]; rfl
    start := rfl
    pos := Scanner.pos_advanceTo hs htext
    wellPlaced := Scanner.wellPlaced_advanceTo hs htext
    next := rfl
    columns := rfl }

/-- A call after the end of what the rule reads: the ill-formed rest, and then the end of the
input. -/
theorem call_of_rest_nil (hrest : l.scanner.rest = []) : l.Call l.nextToken.1 l.nextToken.2 := by
  have hoffset : l.scanner.pos.offset = l.scanner.limit := by
    have hlen := Scanner.rest_length h
    rw [hrest, List.length_nil] at hlen
    have := h.offset_le
    omega
  have hupcoming : l.upcoming
      = Burghard.invalidTail (l.scanner.source.drop l.scanner.limit) := by
    rw [upcoming, hrest, tokenize, List.nil_append]
  by_cases htail : l.scanner.limit < l.scanner.source.length
  · obtain ⟨done, htake, hplaced, hpos, hstart, hcolumns, hdone, hend⟩ :=
      Scanner.takeInvalid?_eq_some (s := l.scanner.startNext) hoffset rfl htail
    have hne : l.scanner.source.drop l.scanner.limit ≠ [] := by
      rw [ne_eq, List.drop_eq_nil_iff, Nat.not_le]
      exact htail
    rw [Burghard.invalidTail, if_neg hne] at hupcoming
    have hcall := nextToken_nil hrest
    rw [htake] at hcall
    rw [hcall]
    exact {
      token := by rw [hupcoming]; rfl
      upcoming := by
        rw [hupcoming, upcoming, hdone, hend, tokenize]
        rfl
      start := hstart
      pos := hpos
      wellPlaced := hplaced
      next := rfl
      columns := hcolumns }
  · rw [Nat.not_lt] at htail
    rw [List.drop_eq_nil_of_le htail] at hupcoming
    have hcall := nextToken_nil hrest
    have htext : l.scanner.startNext.text = [] := by
      rw [Scanner.text, Scanner.slice]
      simp [Scanner.startNext]
    have htake : l.scanner.startNext.takeInvalid? = none := Scanner.takeInvalid?_eq_none htail
    rw [htake] at hcall
    rw [hcall]
    exact {
      token := by rw [hupcoming]; exact congrArg (Token.plain · .endOfInput) htext
      upcoming := by
        change l.upcoming = _
        rw [hupcoming]
        rfl
      start := rfl
      pos := by
        change l.scanner.pos = l.scanner.pos.advance _ l.scanner.startNext.text
        rw [htext]
        rfl
      wellPlaced := h.startNext
      next := rfl
      columns := rfl }

/-- **Every call** returns the next token and moves over its text. -/
theorem call_nextToken (hnext : ReadsStart l.next) : l.Call l.nextToken.1 l.nextToken.2 := by
  cases hrest : l.scanner.rest with
  | nil => exact call_of_rest_nil h hrest
  | cons b rest => exact call_of_rest_cons h hnext hrest

end Call

theorem texts_take_succ (ts : List Token) (n : Nat) :
    texts (ts.take (n + 1))
      = texts (ts.take n) ++ ((ts.drop n).headD Token.endOfInput).text := by
  rw [List.take_add_one, texts_append, List.headD_eq_head?_getD, List.head?_drop]
  cases ts[n]? with
  | none => rfl
  | some t => simp

section Run

variable {l : Lexer} (h : l.scanner.WellPlaced) (hnext : ReadsStart l.next)

include h hnext

/-- **The lexer after some calls** has handed out as many tokens and stands behind their texts. -/
theorem after_spec (n : Nat) :
    (l.after n).scanner.WellPlaced ∧ (l.after n).next = l.next ∧
      (l.after n).upcoming = l.upcoming.drop n ∧
      (l.after n).scanner.columns = l.scanner.columns ∧
      (l.after n).scanner.pos
        = l.scanner.pos.advance l.scanner.columns (texts (l.upcoming.take n)) := by
  induction n with
  | zero => exact ⟨h, rfl, rfl, rfl, rfl⟩
  | succ n ih =>
    obtain ⟨hplaced, hrule, hupcoming, hcolumns, hpos⟩ := ih
    have call := call_nextToken hplaced (hrule ▸ hnext)
    refine ⟨call.wellPlaced, call.next.trans hrule, ?_, call.columns.trans hcolumns, ?_⟩
    · rw [after, call.upcoming, hupcoming, List.tail_drop]
    · rw [after, call.pos, call.token, hupcoming, hcolumns, hpos, texts_take_succ,
        Pos.advance_append]

theorem token_eq (n : Nat) : l.token n = (l.upcoming.drop n).headD Token.endOfInput := by
  obtain ⟨hplaced, hrule, hupcoming, -, -⟩ := after_spec h hnext n
  rw [token, (call_nextToken hplaced (hrule ▸ hnext)).token, hupcoming]

theorem start_eq (n : Nat) :
    l.start n = l.scanner.pos.advance l.scanner.columns (texts (l.upcoming.take n)) := by
  obtain ⟨hplaced, hrule, -, -, hpos⟩ := after_spec h hnext n
  rw [start, (call_nextToken hplaced (hrule ▸ hnext)).start, hpos]

theorem texts_map_token (n : Nat) :
    texts ((List.range n).map l.token) = texts (l.upcoming.take n) := by
  induction n with
  | zero => rfl
  | succ n ih =>
    rw [List.range_succ, List.map_append, texts_append, ih, texts_take_succ]
    simp [token_eq h hnext]

end Run

end Lexer

/-! ## Programs -/

namespace Lexicon

theorem scanner_wellPlaced (l : Lexicon) (src : Bytes) : (l.lexer src).scanner.WellPlaced := by
  cases l with
  | burghard => exact ⟨Nat.zero_le _, Utf8.validLength_le src⟩
  | palaiologos | voliva | censoredUsername | wconrad | wsf =>
    exact ⟨Nat.zero_le _, Nat.le_refl _⟩

theorem pos_lexer (l : Lexicon) (src : Bytes) : (l.lexer src).scanner.pos = {} := by
  cases l with
  | burghard | palaiologos | voliva | censoredUsername | wconrad | wsf => rfl

/-- **A lexer hands out the tokens of its program.** -/
theorem upcoming_lexer (l : Lexicon) (src : Bytes) : (l.lexer src).upcoming = l.lex src := by
  have hbytes : (Scanner.ofBytes src).rest = src := List.take_length
  by_cases hl : l = burghard
  · subst hl
    rfl
  · have hscanner : l.scanner src = Scanner.ofBytes src := by
      cases l with
      | burghard => exact absurd rfl hl
      | palaiologos | voliva | censoredUsername | wconrad | wsf => rfl
    rw [Lexer.upcoming, lexer, hscanner, hbytes, lex_eq_tokenize hl]
    simp [Scanner.ofBytes, Burghard.invalidTail]

section Calls

variable (l : Lexicon) (src : Bytes)

theorem token_lexer (n : Nat) :
    (l.lexer src).token n = ((l.lex src).drop n).headD Token.endOfInput := by
  rw [Lexer.token_eq (scanner_wellPlaced l src) l.next_readsStart, upcoming_lexer]

theorem token_lexer_of_lt {n : Nat} (hn : n < (l.lex src).length) :
    (l.lexer src).token n = (l.lex src)[n] := by
  rw [token_lexer, List.headD_eq_head?_getD, List.head?_drop, List.getElem?_eq_getElem hn]
  rfl

theorem token_lexer_of_le {n : Nat} (hn : (l.lex src).length ≤ n) :
    (l.lexer src).token n = Token.endOfInput := by
  rw [token_lexer, List.drop_eq_nil_of_le hn]
  rfl

theorem texts_map_token_lexer (n : Nat) :
    texts ((List.range n).map (l.lexer src).token) = texts ((l.lex src).take n) := by
  rw [Lexer.texts_map_token (scanner_wellPlaced l src) l.next_readsStart, upcoming_lexer]

theorem offset_start_lexer (n : Nat) :
    ((l.lexer src).start n).offset = (texts ((l.lex src).take n)).length := by
  rw [Lexer.start_eq (scanner_wellPlaced l src) l.next_readsStart, upcoming_lexer, pos_lexer,
    Pos.offset_advance, Nat.zero_add]

/-- The text of a token is the part of the program up to the start of the next one. -/
theorem text_token_lexer (n : Nat) : ((l.lexer src).token n).text
    = (src.drop ((l.lexer src).start n).offset).take
      (((l.lexer src).start (n + 1)).offset - ((l.lexer src).start n).offset) := by
  have hsplit : src = texts ((l.lex src).take n) ++ (((l.lexer src).token n).text
      ++ texts ((l.lex src).drop (n + 1))) := by
    rw [← List.append_assoc, token_lexer, ← Lexer.texts_take_succ, ← texts_append,
      List.take_append_drop, texts_lex]
  rw [offset_start_lexer, offset_start_lexer, Lexer.texts_take_succ, ← token_lexer,
    List.length_append, Nat.add_sub_cancel_left]
  exact (take_drop_middle hsplit).symm

end Calls

/-- **What the calls on a lexer return**: the tokens of the program, each with its part of the
source as its text, and then the end of the input. -/
theorem lexer_reads_source (l : Lexicon) (src : Bytes) :
    ∃ count,
      (∀ n < count, ((l.lexer src).token n).text ≠ [] ∧
        ((l.lexer src).token n).kind ≠ .endOfInput) ∧
      (∀ n, count ≤ n → (l.lexer src).token n = Token.endOfInput) ∧
      (List.range count).map (l.lexer src).token = l.lex src ∧
      texts ((List.range count).map (l.lexer src).token) = src ∧
      ∀ n,
        ((l.lexer src).start n).offset
          = (texts ((List.range n).map (l.lexer src).token)).length ∧
        ((l.lexer src).token n).text
          = (src.drop ((l.lexer src).start n).offset).take
            (((l.lexer src).start (n + 1)).offset - ((l.lexer src).start n).offset) := by
  refine ⟨(l.lex src).length, ?_, fun n hn => token_lexer_of_le l src hn, ?_, ?_, ?_⟩
  · intro n hn
    rw [token_lexer_of_lt l src hn]
    have hmem : (l.lex src)[n] ∈ l.lex src := List.getElem_mem hn
    exact ⟨text_ne_nil_of_mem_lex hmem, (isRaw_of_mem_lex hmem).kind_ne_endOfInput⟩
  · refine List.ext_getElem (by simp) fun n _ hn => ?_
    rw [List.getElem_map, List.getElem_range, token_lexer_of_lt l src hn]
  · rw [texts_map_token_lexer, List.take_length, texts_lex]
  · intro n
    refine ⟨?_, text_token_lexer l src n⟩
    rw [offset_start_lexer, texts_map_token_lexer]

end Lexicon

end WhitespaceAsm

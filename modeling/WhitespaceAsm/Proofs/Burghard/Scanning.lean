import WhitespaceAsm.Proofs.Burghard.InvalidTail
import WhitespaceAsm.Proofs.Scanner.Characters

/-!
# The Burghard rule, operation by operation

The first token of a text is what the operations of a scanner over code points find, one after
another, at a place with that text as its rest. None of them looks behind the limit of the scanner.

* `scanComment?`, `scanQuoted`, `ScansWord`, **`Scans`**: what it does for a token;
* **`scans_iff`**: the token is that of the rule; `Scans.cut`: it is the same without what lies
  behind the limit;
* **`lexer_scans`**: every call on the lexer of a program.
-/

namespace WhitespaceAsm.Burghard

/-! ## Looking -/

/-- The blanks between words, as code points. -/
def isBlank (c : Nat) : Bool := c == Ascii.space.toNat || c == Ascii.tab.toNat

/-- A block comment opens here. -/
def opensBlock (s : Scanner) : Bool :=
  s.startsWith blockOpen && !s.startsWith (blockOpen ++ [Ascii.minus])

/-- A word ends here. -/
def endsWord (s : Scanner) : Bool :=
  match s.peekChar? with
  | none => true
  | some c =>
    c == Ascii.doubleQuote.toNat || c == Ascii.semicolon.toNat || isBlank c
      || c == Ascii.lf.toNat || s.startsWith dashes || s.startsWith blockClose || opensBlock s

/-! ## Moving -/

/-- Scans a comment, if one begins here. -/
def scanComment? (s : Scanner) : Option (Token × Scanner) :=
  if s.startsWith [Ascii.semicolon] then some (s.lineComment 1)
  else if s.startsWith dashes then some (s.lineComment 2)
  else if opensBlock s then some (s.blockComment commentStyle)
  else (s.bump? blockClose).map fun done =>
    (done.wrap (.blockComment {
      closing := done.text, nested := true, errors := {.unopened} }), done)

/-- Scans a quoted word from its opening quote on. -/
def scanQuoted (s : Scanner) : Token × Scanner :=
  let opened := s.nextUnit.2
  let ended := (opened.bumpCharsWhile fun c =>
    c != Ascii.doubleQuote.toNat && c != Ascii.lf.toNat).2
  let word : Token := .plain (s.slice opened.pos.offset ended.pos.offset) (.word ∅)
  let closed := ended.bumpCharIf? (· == Ascii.doubleQuote.toNat)
  let done := closed.getD ended
  (.quoted done.text (some word) .double closed.isSome, done)

/-- **Scans a word**: one character, and then more until a word ends. -/
inductive ScansWord : Scanner → Scanner → Prop
  | last {s : Scanner} (h : endsWord s.nextUnit.2) : ScansWord s s.nextUnit.2
  | more {s done : Scanner} (h : endsWord s.nextUnit.2 = false)
      (word : ScansWord s.nextUnit.2 done) : ScansWord s done

/-- **Scans a token** in front of the limit. -/
def Scans (s : Scanner) (t : Token) (done : Scanner) : Prop :=
  match scanComment? s, s.peekChar? with
  | some comment, _ => (t, done) = comment
  | none, none => False
  | none, some c =>
    if isBlank c then
      let blanks := (s.bumpCharsWhile isBlank).2
      (t, done) = (blanks.wrap .space, blanks)
    else if c = Ascii.lf.toNat then
      (t, done) = (s.nextUnit.2.wrap (.lineTerm .lf), s.nextUnit.2)
    else if c = Ascii.doubleQuote.toNat then (t, done) = scanQuoted s
    else ScansWord s done ∧ t = done.wrap (.word ∅)

/-! ## The rule on bytes -/

section Classes

variable {c : Nat} (hc : c.isValidChar) {b : UInt8} (hb : b ∈ Utf8.encode c)

include hc hb

theorem isBlank_eq : isBlank c = isSpace b := by
  rw [isBlank, isSpace, Utf8.beq_of_mem_encode hc hb (by decide),
    Utf8.beq_of_mem_encode hc hb (by decide)]

theorem quotable_eq : (c != Ascii.doubleQuote.toNat && c != Ascii.lf.toNat)
    = (b != Ascii.doubleQuote && b != Ascii.lf) := by
  rw [bne, bne, bne, bne, Utf8.beq_of_mem_encode hc hb (by decide),
    Utf8.beq_of_mem_encode hc hb (by decide)]

end Classes

/-- No word ends inside a character. -/
theorem takeUntil_atWordEnd_append {xs : Bytes} (hxs : ∀ x ∈ xs, 0x80 ≤ x) (t : Bytes) :
    takeUntil atWordEnd (xs ++ t) = xs ++ takeUntil atWordEnd t := by
  induction xs with
  | nil => rfl
  | cons x xs ih =>
    obtain ⟨hx, hxs⟩ := List.forall_mem_cons.1 hxs
    have hstop : atWordEnd (x :: (xs ++ t)) = false :=
      Bool.eq_false_iff.2 fun h => absurd (lt_of_atWordEnd h) (UInt8.not_lt.2 hx)
    rw [List.cons_append, takeUntil, hstop, if_neg Bool.false_ne_true, ih hxs, List.cons_append]

theorem cons_takeUntil_atWordEnd {c : Nat} (hc : c.isValidChar) {b : UInt8} {rest t : Bytes}
    (hcons : b :: rest = Utf8.encode c ++ t) :
    b :: takeUntil atWordEnd rest = Utf8.encode c ++ takeUntil atWordEnd t := by
  obtain ⟨x, xs, hencode⟩ := List.exists_cons_of_ne_nil (Utf8.encode_ne_nil c)
  have hxs : ∀ x ∈ xs, 0x80 ≤ x := fun x hx =>
    Utf8.le_of_mem_tail_encode hc (by rw [hencode]; exact hx)
  rw [hencode, List.cons_append] at hcons
  obtain ⟨rfl, rfl⟩ := List.cons.inj hcons
  rw [takeUntil_atWordEnd_append hxs, hencode, List.cons_append]

/-! ## The rule by operations -/

section Rule

variable {s : Scanner} (h : s.WellPlaced)

include h

theorem endsWord_eq (hvalid : Utf8.isValid s.rest) : endsWord s = atWordEnd s.rest := by
  cases hrest : s.rest with
  | nil =>
    rw [endsWord, Scanner.peekChar?, Scanner.peekUnit?_of_nil h hrest]
    rfl
  | cons b rest =>
    rw [hrest] at hvalid
    obtain ⟨c, t, hc, -, hb, hcons⟩ := Utf8.exists_encode_of_isValid_cons hvalid
    rw [endsWord, Scanner.peekChar?, Scanner.peekUnit?_eq h hc (hrest.trans hcons)]
    simp only [Option.map_some, opensBlock, Scanner.startsWith, hrest, isBlank_eq hc hb,
      Utf8.beq_of_mem_encode hc hb (by decide : Ascii.doubleQuote < 0x80),
      Utf8.beq_of_mem_encode hc hb (by decide : Ascii.semicolon < 0x80),
      Utf8.beq_of_mem_encode hc hb (by decide : Ascii.lf < 0x80)]
    rfl

theorem scanComment?_eq (hsize : s.limit < UInt64.size) (hstart : s.start = s.pos) :
    scanComment? s = (readComment? s.rest).map fun t => (t, s.passed t.text) := by
  have hsemicolon : [Ascii.semicolon].isPrefixOf s.rest ↔ s.rest.head? = some Ascii.semicolon := by
    cases s.rest with
    | nil => simp
    | cons b rest =>
      rw [List.isPrefixOf_cons_cons, List.isPrefixOf_nil_left, Bool.and_true, beq_iff_eq,
        List.head?_cons, Option.some_inj, eq_comm]
  have hopens : opensBlock s = atBlockOpen s.rest := rfl
  simp only [scanComment?, readComment?, Scanner.startsWith, hsemicolon, hopens]
  by_cases hline : s.rest.head? = some Ascii.semicolon
  · have hcomment := Scanner.lineComment_eq h hsize hstart
      (List.isPrefixOf_iff_prefix.1 (hsemicolon.2 hline))
    rw [if_pos hline, if_pos hline]
    exact congrArg some hcomment
  rw [if_neg hline, if_neg hline]
  by_cases hdashes : dashes.isPrefixOf s.rest
  · have hcomment := Scanner.lineComment_eq h hsize hstart (List.isPrefixOf_iff_prefix.1 hdashes)
    rw [if_pos hdashes, if_pos hdashes]
    exact congrArg some hcomment
  rw [if_neg hdashes, if_neg hdashes]
  by_cases hopen : atBlockOpen s.rest
  · rw [if_pos hopen, if_pos hopen, Scanner.blockComment_eq h hstart]
    rfl
  rw [if_neg hopen, if_neg hopen, Scanner.bump?_eq h]
  by_cases hclose : blockClose.isPrefixOf s.rest
  · have hprefix := List.isPrefixOf_iff_prefix.1 hclose
    rw [if_pos hclose, if_pos hclose]
    simp only [Option.map_some, Scanner.wrap_passed h hprefix hstart,
      Scanner.text_passed h hprefix hstart]
    rfl
  · rw [if_neg hclose, if_neg hclose]
    rfl

theorem scanQuoted_eq (hstart : s.start = s.pos) {rest : Bytes}
    (hrest : s.rest = Ascii.doubleQuote :: rest)
    (hvalid : Utf8.isValid (Ascii.doubleQuote :: rest)) :
    scanQuoted s = (readQuoted rest, s.passed (readQuoted rest).text) := by
  let word := rest.takeWhile fun b => b != Ascii.doubleQuote && b != Ascii.lf
  let opened := s.passed [Ascii.doubleQuote]
  let ended := opened.passed word
  have hplaced : opened.WellPlaced := Scanner.wellPlaced_passed h ⟨rest, hrest.symm⟩
  have hopened : opened.rest = rest := Scanner.rest_passed h hrest
  have hword : word <+: opened.rest := hopened ▸ List.takeWhile_prefix _
  have hended : ended.WellPlaced := Scanner.wellPlaced_passed hplaced hword
  have hbehind : opened.rest = word ++ ended.rest := Scanner.rest_eq_append hplaced hword
  have hdrop : rest.drop word.length = ended.rest := by rw [← hopened, hbehind, List.drop_left]
  have hvalidopened : Utf8.isValid opened.rest :=
    hopened ▸ Utf8.isValid_right (x := [Ascii.doubleQuote]) hvalid (Utf8.isValid_byte (by decide))
  have hvalidended : Utf8.isValid ended.rest :=
    Utf8.isValid_right (hbehind ▸ hvalidopened) (readQuoted_wholeCharacters hvalid).unwrap_text
  have htext : (readQuoted rest).text <+: s.rest := hrest ▸ text_readQuoted_isPrefix rest
  -- the operations pass the opening quote, the word and the closing quote, if there is one
  have hnext : s.nextUnit.2 = opened := by
    have hencode : s.rest = Utf8.encode Ascii.doubleQuote.toNat ++ rest := hrest
    rw [Scanner.nextUnit_eq h (by decide) hencode]
    rfl
  have hwhile : (opened.bumpCharsWhile fun c =>
      c != Ascii.doubleQuote.toNat && c != Ascii.lf.toNat).2 = ended := by
    rw [Scanner.bumpCharsWhile_eq hplaced (fun c hc b hb => (quotable_eq hc hb).symm) hvalidopened,
      hopened]
  have hslice : s.slice opened.pos.offset ended.pos.offset = word :=
    Scanner.slice_passed hplaced hword
  have hclosed := Scanner.isSome_bumpCharIf? hended (k := Ascii.doubleQuote) (by decide) hvalidended
  have hdone : (ended.bumpCharIf? (· == Ascii.doubleQuote.toNat)).getD ended
      = s.passed (readQuoted rest).text := by
    rw [Scanner.getD_bumpCharIf? hended (by decide) hvalidended, ← hdrop, ← Scanner.passed_append,
      ← Scanner.passed_append, ← List.append_assoc]
    rfl
  simp only [scanQuoted, hnext, hwhile, hslice, hdone, hclosed,
    Scanner.text_passed h htext hstart, ← hdrop]
  rfl

end Rule

/-! ## Words -/

section Words

variable {s : Scanner} {c : Nat} {t : Bytes}

theorem endsWord_nextUnit (h : s.WellPlaced) (hc : c.isValidChar) (ht : Utf8.isValid t)
    (hrest : s.rest = Utf8.encode c ++ t) : endsWord s.nextUnit.2 = atWordEnd t := by
  have hbehind : (s.passed (Utf8.encode c)).rest = t := Scanner.rest_passed h hrest
  have hplaced := Scanner.wellPlaced_passed h ⟨t, hrest.symm⟩
  rw [Scanner.nextUnit_eq h hc hrest, endsWord_eq hplaced (hbehind ▸ ht), hbehind]

/-- **A word is scanned character by character**, by induction over what follows its first one. -/
theorem scansWord_passed (h : s.WellPlaced) (hc : c.isValidChar) (ht : Utf8.isValid t)
    (hrest : s.rest = Utf8.encode c ++ t) :
    ScansWord s (s.passed (Utf8.encode c ++ takeUntil atWordEnd t)) := by
  have hnext : s.nextUnit.2 = s.passed (Utf8.encode c) :=
    congrArg Prod.snd (Scanner.nextUnit_eq h hc hrest)
  have hends := endsWord_nextUnit h hc ht hrest
  induction t using Utf8.validInduction generalizing s c with
  | nil =>
    rw [takeUntil, List.append_nil, ← hnext]
    exact .last hends
  | encoding d t hd ih =>
    obtain ⟨b, rest, hcons⟩ := List.exists_cons_of_ne_nil (List.append_ne_nil_of_left_ne_nil
      (Utf8.encode_ne_nil d) t)
    rw [hcons, takeUntil, ← hcons]
    cases hstop : atWordEnd (Utf8.encode d ++ t) with
    | true =>
      rw [if_pos rfl, List.append_nil, ← hnext]
      exact .last (hends.trans hstop)
    | false =>
      have ht' := Utf8.isValid_right ht (Utf8.isValid_encode hd)
      have hplaced := Scanner.wellPlaced_passed h ⟨_, hrest.symm⟩
      have hbehind := Scanner.rest_passed h hrest
      rw [if_neg Bool.false_ne_true, cons_takeUntil_atWordEnd hd hcons.symm, Scanner.passed_append]
      refine .more (hends.trans hstop) ?_
      rw [hnext]
      exact ih hplaced hd ht' hbehind (congrArg Prod.snd (Scanner.nextUnit_eq hplaced hd hbehind))
        (endsWord_nextUnit hplaced hd ht' hbehind)
  | illFormed b rest hvalid => exact absurd ht (by simp [Utf8.isValid, Utf8.validLength, hvalid])

theorem ScansWord.unique {done done' : Scanner} (h : ScansWord s done) (h' : ScansWord s done') :
    done = done' := by
  induction h with
  | last hend =>
    cases h' with
    | last => rfl
    | more hgoes => exact absurd hend (Bool.eq_false_iff.1 hgoes)
  | more hgoes _ ih =>
    cases h' with
    | last hend => exact absurd hend (Bool.eq_false_iff.1 hgoes)
    | more _ word => exact ih word

theorem scansWord_iff (h : s.WellPlaced) {b : UInt8} {rest : Bytes} (hrest : s.rest = b :: rest)
    (hvalid : Utf8.isValid (b :: rest)) {done : Scanner} :
    ScansWord s done ↔ done = s.passed (b :: takeUntil atWordEnd rest) := by
  obtain ⟨c, t, hc, ht, -, hcons⟩ := Utf8.exists_encode_of_isValid_cons hvalid
  have hword := scansWord_passed h hc ht (hrest.trans hcons)
  rw [← cons_takeUntil_atWordEnd hc hcons] at hword
  exact ⟨fun h' => h'.unique hword, fun h' => h' ▸ hword⟩

end Words

/-! ## Tokens -/

section Tokens

variable {s : Scanner} (h : s.WellPlaced) (hsize : s.limit < UInt64.size)
  (hstart : s.start = s.pos) {b : UInt8} {rest : Bytes} (hrest : s.rest = b :: rest)
  (hvalid : Utf8.isValid (b :: rest)) {t : Token} {done : Scanner}

include h hsize hstart hrest hvalid

/-- **What is scanned is the first token of the rest**, and the scanner has then passed its
text. -/
theorem scans_iff : Scans s t done ↔ t = next b rest ∧ done = s.passed t.text := by
  obtain ⟨c, u, hc, -, hb, hcons⟩ := Utf8.exists_encode_of_isValid_cons hvalid
  have hencode : s.rest = Utf8.encode c ++ u := hrest.trans hcons
  have hpeek : s.peekChar? = some c := by
    rw [Scanner.peekChar?, Scanner.peekUnit?_eq h hc hencode]
    rfl
  have hpair : ∀ x : Token, (t, done) = (x, s.passed x.text) ↔ t = x ∧ done = s.passed t.text := by
    intro x
    rw [Prod.mk_inj]
    exact and_congr_right fun ht => by rw [ht]
  rw [Scans, scanComment?_eq h hsize hstart, hpeek, next, ← hrest]
  cases readComment? s.rest with
  | some comment => exact hpair comment
  | none =>
    simp only [Option.map_none, isBlank_eq hc hb,
      Utf8.eq_iff_of_mem_encode hc hb (by decide : Ascii.lf < 0x80),
      Utf8.eq_iff_of_mem_encode hc hb (by decide : Ascii.doubleQuote < 0x80)]
    by_cases hspace : isSpace b
    · have hblanks : (s.bumpCharsWhile isBlank).2 = s.passed (b :: rest.takeWhile isSpace) := by
        rw [Scanner.bumpCharsWhile_eq h (fun c hc b hb => (isBlank_eq hc hb).symm)
          (hrest ▸ hvalid), hrest, List.takeWhile_cons, if_pos hspace]
      have htext : b :: rest.takeWhile isSpace <+: s.rest :=
        hrest ▸ (List.prefix_cons_inj b).2 (List.takeWhile_prefix isSpace)
      rw [if_pos hspace, if_pos hspace, hblanks, Scanner.wrap_passed h htext hstart]
      exact hpair _
    rw [if_neg hspace, if_neg hspace]
    by_cases hlf : b = Ascii.lf
    · have hbyte : Utf8.encode c = [b] := by
        rw [(Utf8.eq_iff_of_mem_encode hc hb (by decide : Ascii.lf < 0x80)).2 hlf, hlf]
        rfl
      rw [if_pos hlf, if_pos hlf, Scanner.nextUnit_eq h hc hencode, hbyte,
        Scanner.wrap_passed h ⟨rest, hrest.symm⟩ hstart]
      exact hpair _
    rw [if_neg hlf, if_neg hlf]
    by_cases hquote : b = Ascii.doubleQuote
    · subst hquote
      rw [if_pos rfl, if_pos rfl, scanQuoted_eq h hstart hrest hvalid]
      exact hpair _
    · have htext : b :: takeUntil atWordEnd rest <+: s.rest :=
        hrest ▸ (List.prefix_cons_inj b).2 (takeUntil_isPrefix atWordEnd rest)
      rw [if_neg hquote, if_neg hquote, scansWord_iff h hrest hvalid, and_comm]
      constructor
      · rintro ⟨rfl, rfl⟩
        rw [Scanner.wrap_passed h htext hstart]
        exact ⟨rfl, rfl⟩
      · rintro ⟨rfl, rfl⟩
        exact ⟨(Scanner.wrap_passed h htext hstart _).symm, rfl⟩

/-- **Nothing behind the limit matters**: without it the same token is scanned. -/
theorem Scans.cut (hscans : Scans s t done) : Scans s.cut t done.cut := by
  obtain ⟨rfl, rfl⟩ := (scans_iff h hsize hstart hrest hvalid).1 hscans
  have hplaced : s.cut.WellPlaced := ⟨h.offset_le, by
    change s.limit ≤ (s.source.take s.limit).length
    rw [List.length_take_of_le h.limit_le]⟩
  exact (scans_iff hplaced hsize hstart ((Scanner.rest_cut s).trans hrest) hvalid).2 ⟨rfl, rfl⟩

end Tokens

/-! ## Programs -/

theorem scanner_nextToken {l : Lexer} (h : l.scanner.WellPlaced) (hrule : l.next = next)
    {b : UInt8} {rest : Bytes} (hrest : l.scanner.rest = b :: rest) :
    l.nextToken.1 = next b rest ∧
      l.nextToken.2.scanner = l.scanner.startNext.passed (next b rest).text := by
  have htext : (next b rest).text <+: l.scanner.startNext.rest := by
    rw [show l.scanner.startNext.rest = b :: rest from hrest]
    exact (next_readsStart b rest).text_isPrefix
  rw [Lexer.nextToken_cons hrest, hrule]
  exact ⟨rfl, Scanner.advanceTo_eq_passed h.startNext htext⟩

section Programs

variable {src : Bytes} {n : Nat}

theorem isValid_rest_after (hn : n ≤ (lex (src.take (Utf8.validLength src))).length) :
    ((Lexicon.burghard.lexer src).after n).scanner.limit = Utf8.validLength src ∧
      Utf8.isValid ((Lexicon.burghard.lexer src).after n).scanner.rest := by
  have hfront := Utf8.isValid_take_validLength src
  have hplaced := Lexicon.scanner_wellPlaced .burghard src
  rw [lex_of_isValid hfront] at hn
  induction n with
  | zero => exact ⟨rfl, hfront⟩
  | succ n ih =>
    obtain ⟨hlimit, hvalid⟩ := ih (Nat.le_of_succ_le hn)
    obtain ⟨hplacedn, hrule, -⟩ := Lexer.after_spec hplaced next_readsStart n
    obtain ⟨b, rest, hrest⟩ := List.exists_cons_of_ne_nil
      (Lexer.rest_after_ne_nil hplaced next_readsStart hn)
    obtain ⟨-, hscanner⟩ := scanner_nextToken hplacedn hrule hrest
    obtain ⟨more, hmore⟩ := (next_readsStart b rest).text_isPrefix
    have hbehind := Scanner.rest_passed hplacedn.startNext (hrest.trans hmore.symm)
    rw [hrest] at hvalid
    refine ⟨(congrArg Scanner.limit hscanner).trans hlimit, ?_⟩
    rw [Lexer.after, hscanner, hbehind]
    exact Utf8.isValid_right (hmore ▸ hvalid) (next_keepsCharacters b rest hvalid).text

/-- **Every call on a lexer scans a token** up to the limit, and the same one without what lies
behind it. -/
theorem lexer_scans (hsize : src.length < UInt64.size)
    (hn : n < (lex (src.take (Utf8.validLength src))).length) :
    let l := Lexicon.burghard.lexer src
    let s := (l.after n).scanner.startNext
    let done := (l.after (n + 1)).scanner
    Scans s (l.token n) done ∧ Scans s.cut (l.token n) done.cut := by
  intro l s done
  obtain ⟨hlimit, hvalid⟩ := isValid_rest_after hn.le
  obtain ⟨hplaced, hrule, -⟩ :=
    Lexer.after_spec (Lexicon.scanner_wellPlaced .burghard src) next_readsStart n
  rw [lex_of_isValid (Utf8.isValid_take_validLength src)] at hn
  obtain ⟨b, rest, hrest⟩ := List.exists_cons_of_ne_nil
    (Lexer.rest_after_ne_nil (Lexicon.scanner_wellPlaced .burghard src) next_readsStart hn)
  obtain ⟨htoken, hscanner⟩ := scanner_nextToken hplaced hrule hrest
  have hlt : s.limit < UInt64.size :=
    Nat.lt_of_le_of_lt (hlimit.trans_le (Utf8.validLength_le src)) hsize
  rw [hrest] at hvalid
  have hscans : Scans s (l.token n) done := by
    refine (scans_iff hplaced.startNext hlt rfl hrest hvalid).2 ⟨htoken, ?_⟩
    rw [Lexer.token, htoken]
    exact hscanner
  exact ⟨hscans, hscans.cut hplaced.startNext hlt rfl hrest hvalid⟩

end Programs

end WhitespaceAsm.Burghard

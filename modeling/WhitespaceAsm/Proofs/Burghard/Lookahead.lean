import Mathlib.Data.List.TakeWhile
import WhitespaceAsm.Proofs.Burghard.Lex

/-!
# What tokens see of the text behind them

No rule looks further ahead than three bytes. A token that has an end of its own is read from its
text alone; any other ends before a byte, and a word before a marker, that must be there again.

* **`scan_text_append`**: a block comment with an end, read from its text;
* `next_of_semicolon`, …, `next_of_not_atWordEnd`, `next_dispatch`: the rule for each start of a
  text; **`next_eq_word_iff`**: where it reads a word;
* **`next_text_append`**, **`tokenize_before`**: the token and the tokens in front of either.
-/

namespace WhitespaceAsm

/-! ## The first bytes of a text -/

theorem isPrefixOf_congr (marker : Bytes) {s t : Bytes} {k : Nat} (hk : marker.length ≤ k)
    (h : s.take k = t.take k) : marker.isPrefixOf s = marker.isPrefixOf t := by
  have htake : ∀ u : Bytes, marker <+: u ↔ marker <+: u.take k := fun u => by
    rw [List.prefix_take_iff, and_iff_left hk]
  rw [Bool.eq_iff_iff, List.isPrefixOf_iff_prefix, List.isPrefixOf_iff_prefix, htake, h, ← htake]

theorem take_append_of_isPrefix {s x : Bytes} {k : Nat} (h : x <+: s) (hk : k ≤ x.length)
    (t : Bytes) : (x ++ t).take k = s.take k := by
  obtain ⟨rest, rfl⟩ := h
  rw [List.take_append_of_le_length hk, List.take_append_of_le_length hk]

theorem eq_lf_of_drop_takeLine {s more : Bytes} {c : UInt8}
    (h : s.drop (takeLine s).length = c :: more) : c = Ascii.lf := by
  have hc : c ∈ (s.drop (takeLine s).length).head? := by rw [h, List.head?_cons, Option.mem_some]
  simpa using not_of_drop_takeWhile hc

namespace Burghard

theorem atBlockOpen_congr {s t : Bytes} (h : s.take 3 = t.take 3) :
    atBlockOpen s = atBlockOpen t := by
  rw [atBlockOpen, atBlockOpen, isPrefixOf_congr _ (by decide) h, isPrefixOf_congr _ (by decide) h]

/-! ## Block comments -/

theorem closing_congr {s t : Bytes} (h : s.take 3 = t.take 3) :
    commentStyle.closing.isPrefixOf s = commentStyle.closing.isPrefixOf t :=
  isPrefixOf_congr _ (by decide) h

theorem opensHere_congr {s t : Bytes} (h : s.take 3 = t.take 3) :
    commentStyle.opensHere s = commentStyle.opensHere t := by
  have hmarker := isPrefixOf_congr commentStyle.opening (by decide) h
  have hthird : ∀ u : Bytes, (u.drop 2).head? = (u.take 3)[2]? := fun u => by simp
  have hnext : (s.drop commentStyle.opening.length).head?
      = (t.drop commentStyle.opening.length).head? := by
    rw [show commentStyle.opening.length = 2 from rfl, hthird, hthird, h]
  rw [BlockCommentStyle.opensHere, BlockCommentStyle.opensHere, hmarker, hnext]

theorem lineStartsHere_congr {s t : Bytes} (h : s.take 3 = t.take 3) :
    commentStyle.lineStartsHere s = commentStyle.lineStartsHere t := by
  have hdashes := isPrefixOf_congr dashes (by decide) h
  have hsemicolon := isPrefixOf_congr [Ascii.semicolon] (by decide) h
  have heq : ∀ u, commentStyle.lineStartsHere u
      = (dashes.isPrefixOf u || [Ascii.semicolon].isPrefixOf u) := fun u => by
    simp [BlockCommentStyle.lineStartsHere, commentStyle]
  rw [heq, heq, hdashes, hsemicolon]

theorem closing_scan {depth : Nat} {s : Bytes} (h : (commentStyle.scan depth s).terminated) :
    (commentStyle.scan depth s).closing = blockClose := by
  rw [commentStyle.closing_scan, if_pos h]
  rfl

theorem two_le_length_text_scan {depth : Nat} {s : Bytes}
    (h : (commentStyle.scan depth s).terminated) :
    2 ≤ (commentStyle.scan depth s).text.length := by
  rw [BlockCommentStyle.Span.text, closing_scan h, List.length_append]
  exact Nat.le_add_left 2 _

theorem take_drop_step {b : UInt8} {rest x : Bytes} {n : Nat} (hn : n ≤ rest.length)
    (hx : x <+: rest.drop n) (hlength : 2 ≤ x.length) (t : Bytes) :
    (b :: (rest.take n ++ (x ++ t))).take 3 = (b :: rest).take 3 ∧
      (rest.take n ++ (x ++ t)).take n = rest.take n ∧
      (rest.take n ++ (x ++ t)).drop n = x ++ t := by
  have htake : (rest.take n).length = n := List.length_take_of_le hn
  have hprefix : b :: (rest.take n ++ x) <+: b :: rest := by
    have h := (List.prefix_append_right_inj (rest.take n)).2 hx
    rw [List.take_append_drop] at h
    exact (List.prefix_cons_inj b).2 h
  refine ⟨?_, List.take_left' htake, List.drop_left' htake⟩
  have h := take_append_of_isPrefix hprefix (k := 3) (by simp; omega) t
  simpa using h

theorem text_after_append (span : BlockCommentStyle.Span) (b : UInt8) (x t : Bytes) :
    (span.after (b :: x)).text ++ t = b :: (x ++ (span.text ++ t)) := by
  simp [BlockCommentStyle.Span.text, BlockCommentStyle.Span.after]

theorem text_scan_of_not_terminated {depth : Nat} {s : Bytes}
    (h : (commentStyle.scan depth s).terminated = false) :
    (commentStyle.scan depth s).text = s := by
  have hafter : ∀ (span : BlockCommentStyle.Span) (b : UInt8) (rest : Bytes) (n : Nat),
      span.text = rest.drop n → (span.after (b :: rest.take n)).text = b :: rest := by
    intro span b rest n hspan
    rw [← List.append_nil (BlockCommentStyle.Span.text _), text_after_append, List.append_nil,
      hspan, List.take_append_drop]
  induction depth, s using BlockCommentStyle.scan.induct commentStyle with
  | case1 depth => simp [BlockCommentStyle.scan, BlockCommentStyle.Span.text]
  | case2 b rest hclose => simp [BlockCommentStyle.scan_cons, hclose] at h
  | case3 b rest hclose depth n ih =>
    rw [BlockCommentStyle.scan_cons, if_pos hclose] at h ⊢
    exact hafter _ _ _ _ (ih h)
  | case4 depth b rest hclose hopen n ih =>
    rw [BlockCommentStyle.scan_cons, if_neg hclose, if_pos hopen] at h ⊢
    exact hafter _ _ _ _ (ih h)
  | case5 depth b rest hclose hopen hline n ih =>
    rw [BlockCommentStyle.scan_cons, if_neg hclose, if_neg hopen, if_pos hline] at h ⊢
    exact hafter _ _ _ _ (ih h)
  | case6 depth b rest hclose hopen hline ih =>
    rw [BlockCommentStyle.scan_cons, if_neg hclose, if_neg hopen, if_neg hline] at h ⊢
    exact hafter _ _ rest 0 (ih h)

/-- **A block comment with an end is read from its text**, whatever follows. -/
theorem scan_text_append {depth : Nat} {s : Bytes} (h : (commentStyle.scan depth s).terminated)
    (t : Bytes) : commentStyle.scan depth ((commentStyle.scan depth s).text ++ t)
      = commentStyle.scan depth s := by
  induction depth, s using BlockCommentStyle.scan.induct commentStyle with
  | case1 depth => simp [BlockCommentStyle.scan] at h
  | case2 b rest hclose =>
    rw [BlockCommentStyle.scan_cons, if_pos hclose]
    exact BlockCommentStyle.scan_cons commentStyle 0 _ _
  | case3 b rest hclose depth n ih =>
    have hn : n ≤ rest.length := by
      have hlen := (List.isPrefixOf_iff_prefix.1 hclose).length_le
      rw [List.length_cons] at hlen
      omega
    rw [BlockCommentStyle.scan_cons, if_pos hclose] at h ⊢
    obtain ⟨hstart, htake, hdrop⟩ := take_drop_step (b := b) hn
      (commentStyle.text_scan_isPrefix depth (rest.drop n)) (two_le_length_text_scan h) t
    dsimp only
    rw [text_after_append, BlockCommentStyle.scan_cons,
      closing_congr hstart, if_pos hclose]
    dsimp only
    rw [htake, hdrop, ih h]
  | case4 depth b rest hclose hopen n ih =>
    have hn : n ≤ rest.length := BlockCommentStyle.opening_length_le hopen
    rw [BlockCommentStyle.scan_cons, if_neg hclose, if_pos hopen] at h ⊢
    obtain ⟨hstart, htake, hdrop⟩ := take_drop_step (b := b) hn
      (commentStyle.text_scan_isPrefix (depth + 1) (rest.drop n)) (two_le_length_text_scan h) t
    rw [text_after_append, BlockCommentStyle.scan_cons,
      closing_congr hstart, if_neg hclose, opensHere_congr hstart, if_pos hopen, htake, hdrop, ih h]
  | case5 depth b rest hclose hopen hline n ih =>
    have hn : n ≤ rest.length := (takeLine_isPrefix rest).length_le
    rw [BlockCommentStyle.scan_cons, if_neg hclose, if_neg hopen, if_pos hline] at h ⊢
    have hprefix := commentStyle.text_scan_isPrefix depth (rest.drop n)
    have htwo := two_le_length_text_scan h
    obtain ⟨hstart, htake, hdrop⟩ := take_drop_step (b := b) hn hprefix htwo t
    -- the comment goes on behind the line, so that the line feed is part of its text
    have hrest : takeLine (rest.take n ++ ((commentStyle.scan depth (rest.drop n)).text ++ t))
        = takeLine rest := by
      obtain ⟨c, x, hx⟩ := List.exists_cons_of_length_pos (Nat.lt_of_lt_of_le Nat.zero_lt_two htwo)
      obtain ⟨more, hmore⟩ := hprefix
      rw [hx, List.cons_append] at hmore
      obtain rfl := eq_lf_of_drop_takeLine hmore.symm
      have hline : rest.take n = takeLine rest :=
        (List.prefix_iff_eq_take.1 (takeLine_isPrefix rest)).symm
      rw [hx, hline, List.cons_append, takeLine_append_lf]
      exact List.takeWhile_idem
    rw [text_after_append, BlockCommentStyle.scan_cons,
      closing_congr hstart, if_neg hclose, opensHere_congr hstart, if_neg hopen,
      lineStartsHere_congr hstart, if_pos hline, hrest, htake, hdrop, ih h]
  | case6 depth b rest hclose hopen hline ih =>
    rw [BlockCommentStyle.scan_cons, if_neg hclose, if_neg hopen, if_neg hline] at h ⊢
    obtain ⟨hstart, -, -⟩ := take_drop_step (b := b) (n := 0) (Nat.zero_le _)
      (commentStyle.text_scan_isPrefix depth rest) (two_le_length_text_scan h) t
    rw [List.take_zero, List.nil_append] at hstart
    rw [text_after_append, List.nil_append, BlockCommentStyle.scan_cons,
      closing_congr hstart, if_neg hclose, opensHere_congr hstart, if_neg hopen,
      lineStartsHere_congr hstart, if_neg hline, ih h]

theorem read_blockOpen_append (s : Bytes) : commentStyle.read (blockOpen ++ s) = {
    opening := blockOpen
    body := (commentStyle.scan 0 s).body
    closing := (commentStyle.scan 0 s).closing
    nested := true
    terminated := (commentStyle.scan 0 s).terminated } := rfl

/-! ## The rule at each start of a text -/

theorem next_of_semicolon (rest : Bytes) :
    next Ascii.semicolon rest = Token.lineComment 1 (Ascii.semicolon :: rest) := rfl

theorem next_of_dashes (rest : Bytes) :
    next Ascii.minus (Ascii.minus :: rest)
      = Token.lineComment 2 (Ascii.minus :: Ascii.minus :: rest) := rfl

theorem next_of_atBlockOpen {b : UInt8} {rest : Bytes} (h : atBlockOpen (b :: rest)) :
    next b rest = Token.blockComment commentStyle (b :: rest) := by
  obtain rfl : b = Ascii.leftBrace := by
    rw [atBlockOpen, Bool.and_eq_true, blockOpen, List.isPrefixOf_cons_cons, Bool.and_eq_true] at h
    exact (beq_iff_eq.1 h.1.1).symm
  have hcomment : readComment? (Ascii.leftBrace :: rest)
      = if atBlockOpen (Ascii.leftBrace :: rest)
        then some (Token.blockComment commentStyle (Ascii.leftBrace :: rest)) else none := rfl
  rw [next, hcomment, if_pos h]

theorem next_of_blockClose (rest : Bytes) :
    next Ascii.minus (Ascii.rightBrace :: rest) = strayClose := rfl

theorem next_of_isSpace {b : UInt8} (h : isSpace b) (rest : Bytes) :
    next b rest = .plain (b :: rest.takeWhile isSpace) .space := by
  have hb : b = Ascii.space ∨ b = Ascii.tab := by simpa [isSpace] using h
  obtain rfl | rfl := hb
  · rfl
  · rfl

theorem next_of_doubleQuote (rest : Bytes) : next Ascii.doubleQuote rest = readQuoted rest := rfl

theorem next_of_not_atWordEnd {b : UInt8} {rest : Bytes} (h : atWordEnd (b :: rest) = false) :
    next b rest = readWord b rest := by
  simp only [atWordEnd, Bool.or_eq_false_iff, beq_eq_false_iff_ne] at h
  obtain ⟨⟨⟨⟨⟨⟨hquote, hsemicolon⟩, hspace⟩, hlf⟩, hdashes⟩, hclose⟩, hopen⟩ := h
  simp [next, readComment?, hquote, hsemicolon, hspace, hlf, hdashes, hclose, hopen]

/-- **What stands at the start of a text.** -/
theorem next_dispatch (b : UInt8) (rest : Bytes) :
    atWordEnd (b :: rest) = false ∨ b = Ascii.semicolon ∨
      (∃ more, b = Ascii.minus ∧ rest = Ascii.minus :: more) ∨ atBlockOpen (b :: rest) ∨
      (∃ more, b = Ascii.minus ∧ rest = Ascii.rightBrace :: more) ∨ isSpace b ∨ b = Ascii.lf ∨
      b = Ascii.doubleQuote := by
  have hmarker : ∀ x y : UInt8, [x, y].isPrefixOf (b :: rest) →
      ∃ more, b = x ∧ rest = y :: more := by
    intro x y h
    obtain ⟨more, hmore⟩ := List.isPrefixOf_iff_prefix.1 h
    exact ⟨more, (List.cons.inj hmore).1.symm, (List.cons.inj hmore).2.symm⟩
  cases h : atWordEnd (b :: rest) with
  | false => exact .inl rfl
  | true =>
    simp only [atWordEnd, Bool.or_eq_true, beq_iff_eq] at h
    obtain (((((h | h) | h) | h) | h) | h) | h := h
    · simp [h]
    · simp [h]
    · simp [h]
    · simp [h]
    · have := hmarker _ _ h
      tauto
    · have := hmarker _ _ h
      tauto
    · simp [h]

theorem not_atWordEnd_of_kind_next {b : UInt8} {rest : Bytes} (h : (next b rest).kind = .word) :
    atWordEnd (b :: rest) = false := by
  obtain hstart | rfl | ⟨after, rfl, rfl⟩ | hopen | ⟨after, rfl, rfl⟩ | hspace | rfl | rfl :=
    next_dispatch b rest
  · exact hstart
  · cases h
  · cases h
  · rw [next_of_atBlockOpen hopen] at h; cases h
  · cases h
  · rw [next_of_isSpace hspace] at h; cases h
  · cases h
  · cases h

/-- **Where a word is read.** It could end nowhere inside, and it ends where it does. -/
theorem next_eq_word_iff (b : UInt8) (x more : Bytes) :
    next b (x ++ more) = .plain (b :: x) (.word ∅) ↔
      (∀ y, y <:+ b :: x → y ≠ [] → atWordEnd (y ++ more) = false) ∧ atWordEnd more := by
  have hmore : more = [] ∨ atWordEnd more ↔ atWordEnd more :=
    or_iff_right_of_imp fun h => by rw [h]; rfl
  have hword := takeUntil_append_eq_iff atWordEnd x more
  rw [hmore] at hword
  constructor
  · intro h
    have hstart := not_atWordEnd_of_kind_next (congrArg Token.kind h)
    rw [next_of_not_atWordEnd hstart, readWord, Token.plain.injEq, List.cons.injEq] at h
    obtain ⟨hsuffix, hend⟩ := hword.1 h.1.2
    refine ⟨fun y hy hne => ?_, hend⟩
    obtain rfl | hy := List.suffix_cons_iff.1 hy
    · exact hstart
    · exact hsuffix y hy hne
  · rintro ⟨hsuffix, hend⟩
    have hstart : atWordEnd (b :: (x ++ more)) = false :=
      hsuffix (b :: x) (List.suffix_refl _) (List.cons_ne_nil b x)
    rw [next_of_not_atWordEnd hstart, readWord, hword.2
      ⟨fun y hy hne => hsuffix y (hy.trans (List.suffix_cons b x)) hne, hend⟩]

/-- A byte that does not end a quoted word. -/
def inQuotes (b : UInt8) : Bool := b != Ascii.doubleQuote && b != Ascii.lf

theorem readQuoted_eq (rest : Bytes) :
    readQuoted rest =
      let word := rest.takeWhile inQuotes
      let terminated : Bool := (rest.drop word.length).head? = some Ascii.doubleQuote
      .quoted ([Ascii.doubleQuote] ++ word ++ (if terminated then [Ascii.doubleQuote] else []))
        (some (.plain word (.word ∅))) .double terminated := rfl

/-! ## A token in front of another text -/

/-- **Two texts look alike to a token in front of them.** -/
structure SameStart (s t : Bytes) : Prop where
  head : s.head? = t.head?
  wordEnd : atWordEnd s = atWordEnd t
  dashes : dashes.isPrefixOf s = dashes.isPrefixOf t

theorem isPrefixOf_pair (x y a : UInt8) (s : Bytes) :
    [x, y].isPrefixOf (a :: s) = (x == a && s.head? == some y) := by
  rw [List.isPrefixOf_cons_cons]
  cases s with
  | nil => rfl
  | cons c s =>
    rw [List.isPrefixOf_cons_cons, List.isPrefixOf_nil_left, Bool.and_true, List.head?_cons,
      Option.some_beq_some, BEq.comm (a := y)]

theorem atBlockOpen_cons (a : UInt8) (s : Bytes) : atBlockOpen (a :: s)
    = (Ascii.leftBrace == a && s.head? == some Ascii.minus && !dashes.isPrefixOf s) := by
  cases s with
  | nil => simp [atBlockOpen, blockOpen]
  | cons c s =>
    rw [atBlockOpen, blockOpen, isPrefixOf_pair, List.cons_append, List.isPrefixOf_cons_cons]
    cases ha : Ascii.leftBrace == a <;> simp [dashes]

namespace SameStart

theorem of_not_atWordEnd {s t : Bytes} (hhead : s.head? = t.head?) (hs : atWordEnd s = false)
    (ht : atWordEnd t = false) : SameStart s t where
  head := hhead
  wordEnd := hs.trans ht.symm
  dashes := by
    have hdashes : ∀ u : Bytes, atWordEnd u = false → Burghard.dashes.isPrefixOf u = false := by
      intro u hu
      cases u with
      | nil => rfl
      | cons b u =>
        simp only [atWordEnd, Bool.or_eq_false_iff] at hu
        exact hu.1.1.2
    rw [hdashes s hs, hdashes t ht]

variable {s t : Bytes} (h : SameStart s t)

include h

theorem cons (a : UInt8) : SameStart (a :: s) (a :: t) where
  head := rfl
  wordEnd := by
    simp only [atWordEnd, Burghard.dashes, blockClose, isPrefixOf_pair, atBlockOpen_cons, h.head]
    have hdashes := h.dashes
    rw [Burghard.dashes] at hdashes
    rw [hdashes]
  dashes := by rw [Burghard.dashes, isPrefixOf_pair, isPrefixOf_pair, h.head]

theorem append (x : Bytes) : SameStart (x ++ s) (x ++ t) := by
  induction x with
  | nil => exact h
  | cons a x ih => exact ih.cons a

theorem eq_nil (hs : s = []) : t = [] := by
  have hhead := h.head
  rw [hs, List.head?_nil] at hhead
  exact List.head?_eq_none_iff.1 hhead.symm

theorem takeWhile_append {p : UInt8 → Bool} {rest : Bytes} (e : rest = rest.takeWhile p ++ s) :
    (rest.takeWhile p ++ t).takeWhile p = rest.takeWhile p := by
  have hstop : ∀ c ∈ s.head?, p c = false := fun _ hc => not_of_takeWhile_append e hc
  rw [h.head] at hstop
  rw [List.takeWhile_append_of_pos fun c hc => List.mem_takeWhile_imp hc]
  cases t with
  | nil => rw [List.takeWhile_nil, List.append_nil]
  | cons c t => rw [List.takeWhile_cons_of_neg (by simp [hstop c rfl]), List.append_nil]

theorem lineComment {n : Nat} {u : Bytes} (hn : n ≤ u.length)
    (e : u = (Token.lineComment n u).text ++ s) :
    Token.lineComment n ((Token.lineComment n u).text ++ t) = Token.lineComment n u := by
  have htext : (Token.lineComment n u).text = u.take n ++ takeLine (u.drop n) := rfl
  have hlength : (u.take n).length = n := List.length_take_of_le hn
  rw [htext, List.append_assoc] at e ⊢
  have hrest : u.drop n = takeLine (u.drop n) ++ s := by
    have hdrop := congrArg (List.drop n) e
    rwa [List.drop_left' hlength] at hdrop
  have hline : takeLine (takeLine (u.drop n) ++ t) = takeLine (u.drop n) :=
    h.takeWhile_append hrest
  have hread : LineComment.read n (u.take n ++ (takeLine (u.drop n) ++ t))
      = LineComment.read n u := by
    rw [LineComment.read, LineComment.read, List.take_left' hlength, List.drop_left' hlength, hline]
  rw [Token.lineComment, Token.lineComment, hread]

theorem blockComment {u : Bytes} (hopen : atBlockOpen u)
    (e : u = (Token.blockComment commentStyle u).text ++ s) :
    Token.blockComment commentStyle ((Token.blockComment commentStyle u).text ++ t)
        = Token.blockComment commentStyle u ∧
      atBlockOpen ((Token.blockComment commentStyle u).text ++ t) := by
  obtain ⟨after, rfl⟩ : blockOpen <+: u := by
    rw [atBlockOpen, Bool.and_eq_true] at hopen
    exact List.isPrefixOf_iff_prefix.1 hopen.1
  have htext : (Token.blockComment commentStyle (blockOpen ++ after)).text
      = blockOpen ++ (commentStyle.scan 0 after).text := List.append_assoc _ _ _
  rw [htext] at e ⊢
  rw [List.append_assoc] at e ⊢
  have hafter : after = (commentStyle.scan 0 after).text ++ s := List.append_cancel_left e
  cases hend : (commentStyle.scan 0 after).terminated with
  | true =>
    have hscan := scan_text_append hend t
    refine ⟨?_, ?_⟩
    · rw [Token.blockComment, Token.blockComment, read_blockOpen_append, read_blockOpen_append,
        hscan]
    · have htwo := two_le_length_text_scan hend
      have hprefix : blockOpen ++ (commentStyle.scan 0 after).text <+: blockOpen ++ after :=
        (List.prefix_append_right_inj blockOpen).2 (commentStyle.text_scan_isPrefix 0 after)
      rw [← hopen, ← List.append_assoc]
      refine atBlockOpen_congr (take_append_of_isPrefix hprefix ?_ t)
      rw [List.length_append]
      exact Nat.le_trans (by decide) (Nat.add_le_add_left htwo _)
  | false =>
    -- a comment without an end takes everything, so that nothing follows it
    have hall := text_scan_of_not_terminated hend
    have hs : s = [] := by
      rw [hall] at hafter
      exact List.append_cancel_left ((List.append_nil after).trans hafter).symm
    rw [h.eq_nil hs, List.append_nil, hall]
    exact ⟨rfl, hopen⟩

theorem readQuoted {rest more : Bytes}
    (e : Ascii.doubleQuote :: rest = (readQuoted rest).text ++ s)
    (e' : Ascii.doubleQuote :: more = (readQuoted rest).text ++ t) :
    Burghard.readQuoted more = Burghard.readQuoted rest := by
  have hsplit := append_drop_length (List.takeWhile_prefix inQuotes (l := rest))
  have hword : ∀ c ∈ rest.takeWhile inQuotes, inQuotes c := fun c hc => List.mem_takeWhile_imp hc
  rw [readQuoted_eq] at e e'
  rw [readQuoted_eq, readQuoted_eq]
  by_cases hend : (rest.drop (rest.takeWhile inQuotes).length).head? = some Ascii.doubleQuote
  · have hmore : more = rest.takeWhile inQuotes ++ Ascii.doubleQuote :: t := by
      simpa [hend, Token.text, -List.head?_drop] using e'
    have htake : more.takeWhile inQuotes = rest.takeWhile inQuotes := by
      rw [hmore, List.takeWhile_append_of_pos hword, List.takeWhile_cons_of_neg (by decide),
        List.append_nil]
    have hclose : (more.drop (rest.takeWhile inQuotes).length).head?
        = some Ascii.doubleQuote := by
      rw [hmore, List.drop_left, List.head?_cons]
    simp only [htake, hend, hclose]
  · have hrest : rest = rest.takeWhile inQuotes ++ s := by
      simpa [hend, Token.text, -List.head?_drop] using e
    have hmore : more = rest.takeWhile inQuotes ++ t := by
      simpa [hend, Token.text, -List.head?_drop] using e'
    have htake : more.takeWhile inQuotes = rest.takeWhile inQuotes := by
      rw [hmore]
      exact h.takeWhile_append hrest
    have hhead : (more.drop (rest.takeWhile inQuotes).length).head?
        = (rest.drop (rest.takeWhile inQuotes).length).head? := by
      have hs : rest.drop (rest.takeWhile inQuotes).length = s :=
        List.append_cancel_left (hsplit.trans hrest)
      rw [hs, hmore, List.drop_left, h.head]
    simp only [htake, hhead]

end SameStart

/-- **A token in front of another text** that looks alike to it is the same token. -/
theorem next_text_append {b : UInt8} {rest more s t : Bytes} (h : SameStart s t)
    (e : b :: rest = (next b rest).text ++ s) (e' : b :: more = (next b rest).text ++ t) :
    next b more = next b rest := by
  obtain hword | rfl | ⟨after, rfl, rfl⟩ | hopen | ⟨after, rfl, rfl⟩ | hspace | rfl | rfl :=
    next_dispatch b rest
  · rw [next_of_not_atWordEnd hword] at e e' ⊢
    have hrest : rest = takeUntil atWordEnd rest ++ s := (List.cons.inj e).2
    have hmore : more = takeUntil atWordEnd rest ++ t := (List.cons.inj e').2
    have hread := next_of_not_atWordEnd hword
    rw [readWord] at hread ⊢
    generalize takeUntil atWordEnd rest = x at hrest hmore hread
    subst hrest hmore
    rw [next_eq_word_iff] at hread ⊢
    obtain ⟨hsuffix, hend⟩ := hread
    refine ⟨fun y hy hne => ?_, ?_⟩
    · rw [← (h.append y).wordEnd]; exact hsuffix y hy hne
    · rw [← h.wordEnd]; exact hend
  · rw [next_of_semicolon] at e e' ⊢
    rw [next_of_semicolon, e', h.lineComment (by simp) e]
  · rw [next_of_dashes] at e e' ⊢
    obtain ⟨more, rfl⟩ : ∃ x, more = Ascii.minus :: x := ⟨_, (List.cons.inj e').2⟩
    rw [next_of_dashes, e', h.lineComment (by simp) e]
  · rw [next_of_atBlockOpen hopen] at e e' ⊢
    obtain ⟨hcomment, hstart⟩ := h.blockComment hopen e
    rw [← e'] at hcomment hstart
    rw [next_of_atBlockOpen hstart, hcomment]
  · obtain ⟨more, rfl⟩ : ∃ x, more = Ascii.rightBrace :: x := ⟨_, (List.cons.inj e').2⟩
    rw [next_of_blockClose, next_of_blockClose]
  · rw [next_of_isSpace hspace] at e e' ⊢
    have hrest : rest = rest.takeWhile isSpace ++ s := (List.cons.inj e).2
    have hmore : more = rest.takeWhile isSpace ++ t := (List.cons.inj e').2
    rw [next_of_isSpace hspace, hmore, h.takeWhile_append hrest]
  · rw [next_lf, next_lf]
  · rw [next_of_doubleQuote] at e e' ⊢
    exact h.readQuoted e e'

/-- **The tokens in front of a text** are the same in front of one that looks alike to them. -/
theorem tokenize_before {before : List Token} {s t : Bytes} (h : SameStart s t)
    (hs : tokenize next (texts before ++ s) = before ++ tokenize next s) :
    tokenize next (texts before ++ t) = before ++ tokenize next t := by
  induction before with
  | nil => rfl
  | cons first before ih =>
    rw [texts_cons, List.append_assoc, List.cons_append] at hs
    cases hsource : first.text ++ (texts before ++ s) with
    | nil => rw [hsource, tokenize] at hs; cases hs
    | cons b rest =>
      obtain ⟨after, he⟩ := (next_readsStart b rest).text_isPrefix
      rw [hsource, tokenize_eq next_readsStart he.symm, List.cons.injEq] at hs
      obtain ⟨rfl, hafter⟩ := hs
      rw [← he] at hsource
      obtain rfl := List.append_cancel_left hsource
      obtain ⟨c, text, htext⟩ := List.exists_cons_of_ne_nil (next_readsStart b rest).text_ne_nil
      have hb : b = c := by rw [htext] at he; exact (List.cons.inj he).1.symm
      have e : b :: (text ++ (texts before ++ t)) = (next b rest).text ++ (texts before ++ t) := by
        rw [htext, hb]; rfl
      have hnext := next_text_append (h.append (texts before)) he.symm e
      rw [texts_cons, List.append_assoc, ← e, List.cons_append]
      rw [← hnext] at e
      rw [tokenize_eq next_readsStart e, hnext, ih hafter]

end Burghard

end WhitespaceAsm

import WhitespaceAsm.Comment
import WhitespaceAsm.Proofs.Lexing

/-!
# Where a comment ends

A comment stands at the start of its text. A line comment takes the rest of its line; a block
comment that has an end is not changed by more lines behind it.

* `BlockCommentStyle.closing_scan`, `BlockCommentStyle.text_read_isPrefix`,
  **`BlockCommentStyle.read_append_lf`**.
-/

namespace WhitespaceAsm

/-! ## Line comments -/

namespace LineComment

theorem text_read_isPrefix (n : Nat) (s : Bytes) : (read n s).text <+: s := by
  have hdrop : takeLine (s.drop n) <+: s.drop (s.take n).length := by
    rw [List.length_take]
    by_cases hn : n ≤ s.length
    · rw [Nat.min_eq_left hn]; exact takeLine_isPrefix _
    · rw [List.drop_eq_nil_of_le (by omega)]; exact List.nil_prefix
  exact append_isPrefix (List.take_prefix n s) hdrop

theorem text_read_ne_nil {n : Nat} (hn : n ≠ 0) (b : UInt8) (rest : Bytes) :
    (read n (b :: rest)).text ≠ [] := by
  obtain ⟨m, rfl⟩ := Nat.exists_eq_succ_of_ne_zero hn
  simp [text, read]

theorem lf_of_text_read {n : Nat} {s : Bytes} {c : UInt8} {more : Bytes}
    (e : s = (read n s).text ++ c :: more) : c = Ascii.lf := by
  have hdrop : s.drop n = takeLine (s.drop n) ++ c :: more := by
    have htext : s.take n ++ s.drop n = s.take n ++ (takeLine (s.drop n) ++ c :: more) := by
      rw [List.take_append_drop, ← List.append_assoc]
      exact e
    exact List.append_cancel_left htext
  simpa using not_of_takeWhile_append hdrop (Option.mem_some.2 rfl)

theorem read_append_lf {n : Nat} {s : Bytes} (hn : n ≤ s.length) (t : Bytes) :
    read n (s ++ Ascii.lf :: t) = read n s := by
  rw [read, read, List.take_append_of_le_length hn, List.drop_append_of_le_length hn,
    takeLine_append_lf]

end LineComment

/-! ## Block comments -/

namespace BlockCommentStyle

variable (style : BlockCommentStyle)

/-- What a span takes of the text. -/
def Span.text (span : Span) : Bytes := span.body ++ span.closing

theorem text_after_isPrefix {span : Span} {b : UInt8} {rest : Bytes} {n : Nat}
    (h : span.text <+: rest.drop n) : (span.after (b :: rest.take n)).text <+: b :: rest := by
  have he : (span.after (b :: rest.take n)).text = b :: (rest.take n ++ span.text) := by
    simp [Span.after, Span.text]
  have hrest := (List.prefix_append_right_inj (rest.take n)).2 h
  rw [List.take_append_drop] at hrest
  rw [he]
  exact (List.prefix_cons_inj b).2 hrest

theorem scan_cons (depth : Nat) (b : UInt8) (rest : Bytes) :
    style.scan depth (b :: rest) =
      if style.closing.isPrefixOf (b :: rest) then
        match depth with
        | 0 => ⟨[], style.closing, true⟩
        | depth + 1 =>
          (style.scan depth (rest.drop (style.closing.length - 1))).after
            (b :: rest.take (style.closing.length - 1))
      else if style.opensHere (b :: rest) then
        (style.scan (depth + 1) (rest.drop (style.opening.length - 1))).after
          (b :: rest.take (style.opening.length - 1))
      else if style.lineStartsHere (b :: rest) then
        (style.scan depth (rest.drop (takeLine rest).length)).after
          (b :: rest.take (takeLine rest).length)
      else (style.scan depth rest).after [b] :=
  scan.eq_def style depth (b :: rest)

theorem text_scan_isPrefix (depth : Nat) (s : Bytes) : (style.scan depth s).text <+: s := by
  induction depth, s using scan.induct style with
  | case1 depth => rw [scan]; exact List.nil_prefix
  | case2 b rest hclose =>
    rw [scan_cons, if_pos hclose]
    exact List.isPrefixOf_iff_prefix.1 hclose
  | case3 b rest hclose depth n ih =>
    rw [scan_cons, if_pos hclose]
    exact text_after_isPrefix ih
  | case4 depth b rest hclose hopen n ih =>
    rw [scan_cons, if_neg hclose, if_pos hopen]
    exact text_after_isPrefix ih
  | case5 depth b rest hclose hopen hline n ih =>
    rw [scan_cons, if_neg hclose, if_neg hopen, if_pos hline]
    exact text_after_isPrefix ih
  | case6 depth b rest hclose hopen hline ih =>
    rw [scan_cons, if_neg hclose, if_neg hopen, if_neg hline]
    have h : (style.scan depth rest).text <+: rest.drop 0 := ih
    exact text_after_isPrefix h

theorem closing_scan (depth : Nat) (s : Bytes) : (style.scan depth s).closing
    = if (style.scan depth s).terminated then style.closing else [] := by
  induction depth, s using scan.induct style with
  | case1 depth => rw [scan]; rfl
  | case2 b rest hclose => rw [scan_cons, if_pos hclose]; rfl
  | case3 b rest hclose depth n ih => rw [scan_cons, if_pos hclose]; exact ih
  | case4 depth b rest hclose hopen n ih => rw [scan_cons, if_neg hclose, if_pos hopen]; exact ih
  | case5 depth b rest hclose hopen hline n ih =>
    rw [scan_cons, if_neg hclose, if_neg hopen, if_pos hline]
    exact ih
  | case6 depth b rest hclose hopen hline ih =>
    rw [scan_cons, if_neg hclose, if_neg hopen, if_neg hline]
    exact ih

theorem text_read_isPrefix (s : Bytes) : (style.read s).text <+: s := by
  have hdrop : (style.scan 0 (s.drop style.opening.length)).text
      <+: s.drop (s.take style.opening.length).length := by
    rw [List.length_take]
    by_cases hn : style.opening.length ≤ s.length
    · rw [Nat.min_eq_left hn]; exact style.text_scan_isPrefix 0 _
    · rw [List.drop_eq_nil_of_le (by omega), scan]; exact List.nil_prefix
  have h := append_isPrefix (List.take_prefix style.opening.length s) hdrop
  rw [Span.text, ← List.append_assoc] at h
  exact h

variable {style} in
theorem text_read_ne_nil (h : style.opening ≠ []) (b : UInt8) (rest : Bytes) :
    (style.read (b :: rest)).text ≠ [] := by
  obtain ⟨c, marker, hc⟩ := List.exists_cons_of_ne_nil h
  simp [BlockComment.text, read, hc]

/-! ### Line feeds -/

/-- No marker of the comments reaches across the end of a line. -/
structure WithinLine : Prop where
  opening : Ascii.lf ∉ style.opening
  closing : Ascii.lf ∉ style.closing
  lineMarkers : ∀ marker ∈ style.lineMarkers, Ascii.lf ∉ marker
  exception : style.exception ≠ some Ascii.lf

variable {style} (h : style.WithinLine)

include h

theorem opensHere_append_lf (s t : Bytes) :
    style.opensHere (s ++ Ascii.lf :: t) = style.opensHere s := by
  rw [opensHere, opensHere, isPrefixOf_append_lf s t h.opening]
  cases ho : style.opening.isPrefixOf s with
  | false => simp
  | true =>
    have hlen := (List.isPrefixOf_iff_prefix.1 ho).length_le
    rw [List.drop_append_of_le_length hlen]
    congr 1
    cases hexc : style.exception with
    | none => rfl
    | some x =>
      have hx : Ascii.lf ≠ x := fun e => h.exception (by rw [hexc, e])
      cases s.drop style.opening.length with
      | nil => simp [bne, hx]
      | cons c rest => rfl

theorem lineStartsHere_append_lf (s t : Bytes) :
    style.lineStartsHere (s ++ Ascii.lf :: t) = style.lineStartsHere s := by
  rw [lineStartsHere, lineStartsHere, Bool.eq_iff_iff, List.any_eq_true, List.any_eq_true]
  refine exists_congr fun marker => and_congr_right fun hm => ?_
  rw [isPrefixOf_append_lf s t (h.lineMarkers marker hm)]

omit h in
theorem opening_length_le {b : UInt8} {rest : Bytes} (ho : style.opensHere (b :: rest)) :
    style.opening.length - 1 ≤ rest.length := by
  rw [opensHere, Bool.and_eq_true, Bool.and_eq_true, List.isPrefixOf_iff_prefix] at ho
  have hlen := ho.1.2.length_le
  rw [List.length_cons] at hlen
  omega

/-- **More lines behind a comment that has an end do not change it.** -/
theorem scan_append_lf {depth : Nat} {s : Bytes} (hs : (style.scan depth s).terminated)
    (t : Bytes) : style.scan depth (s ++ Ascii.lf :: t) = style.scan depth s := by
  -- the same marker is found in front of the line feed as without it
  have hstep : ∀ depth b rest, style.scan depth (b :: rest ++ Ascii.lf :: t) = _ :=
    fun depth b rest => style.scan_cons depth b (rest ++ Ascii.lf :: t)
  simp only [← List.cons_append, isPrefixOf_append_lf _ t h.closing, opensHere_append_lf h,
    lineStartsHere_append_lf h] at hstep
  induction depth, s using scan.induct style with
  | case1 depth => simp [scan] at hs
  | case2 b rest hclose => rw [hstep, scan_cons, if_pos hclose, if_pos hclose]
  | case3 b rest hclose depth n ih =>
    have hlen := (List.isPrefixOf_iff_prefix.1 hclose).length_le
    have hn : style.closing.length - 1 ≤ rest.length := by rw [List.length_cons] at hlen; omega
    rw [scan_cons, if_pos hclose] at hs
    rw [hstep, scan_cons, if_pos hclose, if_pos hclose]
    dsimp only
    rw [List.drop_append_of_le_length hn, List.take_append_of_le_length hn, ih hs]
  | case4 depth b rest hclose hopen n ih =>
    have hn := opening_length_le hopen
    rw [scan_cons, if_neg hclose, if_pos hopen] at hs
    rw [hstep, scan_cons, if_neg hclose, if_neg hclose, if_pos hopen, if_pos hopen,
      List.drop_append_of_le_length hn, List.take_append_of_le_length hn, ih hs]
  | case5 depth b rest hclose hopen hline n ih =>
    have hn := (takeLine_isPrefix rest).length_le
    rw [scan_cons, if_neg hclose, if_neg hopen, if_pos hline] at hs
    rw [hstep, scan_cons, if_neg hclose, if_neg hclose, if_neg hopen, if_neg hopen, if_pos hline,
      if_pos hline, takeLine_append_lf, List.drop_append_of_le_length hn,
      List.take_append_of_le_length hn, ih hs]
  | case6 depth b rest hclose hopen hline ih =>
    rw [scan_cons, if_neg hclose, if_neg hopen, if_neg hline] at hs
    rw [hstep, scan_cons, if_neg hclose, if_neg hclose, if_neg hopen, if_neg hopen, if_neg hline,
      if_neg hline, ih hs]

theorem read_append_lf {s : Bytes} (hopen : style.opening <+: s)
    (hs : (style.read s).terminated) (t : Bytes) :
    style.read (s ++ Ascii.lf :: t) = style.read s := by
  have hn := hopen.length_le
  rw [read] at hs
  rw [read, read, List.drop_append_of_le_length hn, List.take_append_of_le_length hn,
    scan_append_lf h hs]

end BlockCommentStyle

/-! ## Tokens of comments -/

namespace Token

theorem starts_lineComment {n : Nat} (hn : n ≠ 0) (b : UInt8) (rest : Bytes) :
    (lineComment n (b :: rest)).Starts (b :: rest) :=
  ⟨LineComment.text_read_ne_nil hn b rest, LineComment.text_read_isPrefix n _⟩

theorem starts_checkedComment {n : Nat} (hn : n ≠ 0) (b : UInt8) (rest : Bytes) :
    (checkedComment n (b :: rest)).Starts (b :: rest) :=
  ⟨LineComment.text_read_ne_nil hn b rest, LineComment.text_read_isPrefix n _⟩

theorem starts_blockComment {style : BlockCommentStyle} (h : style.opening ≠ []) (b : UInt8)
    (rest : Bytes) : (blockComment style (b :: rest)).Starts (b :: rest) :=
  ⟨BlockCommentStyle.text_read_ne_nil h b rest, style.text_read_isPrefix _⟩

theorem lineComment_append_lf {n : Nat} {s : Bytes} (hn : n ≤ s.length) (t : Bytes) :
    lineComment n (s ++ Ascii.lf :: t) = lineComment n s := by
  rw [lineComment, lineComment, LineComment.read_append_lf hn]

theorem checkedComment_append_lf {n : Nat} {s : Bytes} (hn : n ≤ s.length) (t : Bytes) :
    checkedComment n (s ++ Ascii.lf :: t) = checkedComment n s := by
  rw [checkedComment, checkedComment, LineComment.read_append_lf hn]

/-- The token is a block comment without an end. -/
def isOpenComment : Token → Bool
  | plain _ (.blockComment c) => !c.terminated
  | _ => false

theorem blockComment_append_lf {style : BlockCommentStyle} (h : style.WithinLine) {s : Bytes}
    (hopen : style.opening <+: s) (hs : (blockComment style s).isOpenComment = false)
    (t : Bytes) : blockComment style (s ++ Ascii.lf :: t) = blockComment style s := by
  have hterm : (style.read s).terminated = true := by simpa [blockComment, isOpenComment] using hs
  rw [blockComment, blockComment, BlockCommentStyle.read_append_lf h hopen hterm]

end Token

end WhitespaceAsm

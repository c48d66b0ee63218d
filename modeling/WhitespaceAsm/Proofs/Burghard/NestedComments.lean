import WhitespaceAsm.Proofs.Burghard.CommentInWord
import WhitespaceAsm.Proofs.Utf8.Boundary

/-!
# Comments inside comments

A block comment ends at the closing marker that belongs to its opening marker. Inside it stand other
block comments, line comments, which hide every marker up to the end of their line, and any bytes
that begin no marker. A scan goes over each of these pieces as a whole, whatever its depth.

* **`NestedComment`**, `CommentPiece`: the grammar of block comments and of what is inside them;
* `NestedComment.passedOver`, **`CommentPiece.passedOver`**: the comments and pieces of the grammar;
* **`lex_nestedComment`**: a program that begins with such a comment, and one without its end.
-/

namespace WhitespaceAsm.Burghard

/-! ## The grammar -/

mutual

/-- **A block comment with its pieces.** There is at least one, and the first is not a line comment
of dashes, because the opening marker does not count before another minus. -/
inductive NestedComment : Bytes → Prop
  | intro {first : Bytes} {more : List Bytes} (hfirst : CommentPiece first)
      (hdashes : ¬ dashes <+: first) (hmore : ∀ piece ∈ more, CommentPiece piece) :
      NestedComment (commented (first ++ more.flatten))

/-- **A piece of a block comment**: another block comment, a line comment with the line feed behind
it, or bytes of which none is in a marker. -/
inductive CommentPiece : Bytes → Prop
  | comment {c : Bytes} (h : NestedComment c) : CommentPiece c
  | line {marker body : Bytes} (hmarker : marker = dashes ∨ marker = [Ascii.semicolon])
      (hbody : Ascii.lf ∉ body) : CommentPiece (marker ++ body ++ [Ascii.lf])
  | run {s : Bytes} (hne : s ≠ []) (hs : ∀ b ∈ s,
      b ∉ [Ascii.minus, Ascii.leftBrace, Ascii.rightBrace, Ascii.semicolon]) : CommentPiece s

end

/-! ## What a scan goes over -/

theorem after_after (span : BlockCommentStyle.Span) (s t : Bytes) :
    (span.after s).after t = span.after (t ++ s) := by
  simp [BlockCommentStyle.Span.after]

/-- **A scan goes over a text** at every depth, whatever follows it. -/
def PassedOver (s : Bytes) : Prop :=
  ∀ depth t, commentStyle.scan depth (s ++ t) = (commentStyle.scan depth t).after s

namespace PassedOver

theorem nil : PassedOver [] := fun _ _ => rfl

theorem append {s t : Bytes} (hs : PassedOver s) (ht : PassedOver t) : PassedOver (s ++ t) := by
  intro depth u
  rw [List.append_assoc, hs, ht, after_after]

theorem flatten {pieces : List Bytes} (h : ∀ piece ∈ pieces, PassedOver piece) :
    PassedOver pieces.flatten := by
  induction pieces with
  | nil => exact nil
  | cons piece pieces ih =>
    obtain ⟨hpiece, hpieces⟩ := List.forall_mem_cons.1 h
    exact hpiece.append (ih hpieces)

theorem run {s : Bytes}
    (hs : ∀ b ∈ s, b ≠ Ascii.minus ∧ b ≠ Ascii.leftBrace ∧ b ≠ Ascii.semicolon) :
    PassedOver s := by
  induction s with
  | nil => exact nil
  | cons b s ih =>
    obtain ⟨⟨hminus, hbrace, hsemicolon⟩, hs⟩ := List.forall_mem_cons.1 hs
    have hbyte : PassedOver [b] := scan_cons_of_ne hminus hbrace hsemicolon
    exact hbyte.append (ih hs)

theorem line {marker body : Bytes} (hmarker : marker = dashes ∨ marker = [Ascii.semicolon])
    (hbody : Ascii.lf ∉ body) : PassedOver (marker ++ body ++ [Ascii.lf]) := by
  have hlf : PassedOver [Ascii.lf] := run (List.forall_mem_singleton.2 (by decide))
  intro depth t
  have hline : ∀ x, Ascii.lf ∉ x → takeLine (x ++ Ascii.lf :: t) = x := by
    intro x hx
    rw [takeLine_append_lf, takeLine, List.takeWhile_eq_self_iff]
    intro b hb
    rw [bne_iff_ne]
    rintro rfl
    exact hx hb
  suffices h : commentStyle.scan depth (marker ++ body ++ Ascii.lf :: t)
      = (commentStyle.scan depth (Ascii.lf :: t)).after (marker ++ body) by
    rw [List.append_assoc, List.singleton_append, h, ← List.singleton_append, hlf, after_after]
  obtain rfl | rfl := hmarker
  · have hrest := hline (Ascii.minus :: body)
      fun h => (List.mem_cons.1 h).elim (by decide) hbody
    have hstep := BlockCommentStyle.scan_cons commentStyle depth Ascii.minus
      (Ascii.minus :: body ++ Ascii.lf :: t)
    rw [hrest, List.drop_left, List.take_left] at hstep
    exact hstep
  · have hstep := BlockCommentStyle.scan_cons commentStyle depth Ascii.semicolon
      (body ++ Ascii.lf :: t)
    rw [hline body hbody, List.drop_left, List.take_left] at hstep
    exact hstep

theorem commented {body : Bytes} (hbody : PassedOver body)
    (hhead : ∃ b ∈ body.head?, b ≠ Ascii.minus) : PassedOver (Burghard.commented body) := by
  intro depth t
  have hopen : commentStyle.scan depth (blockOpen ++ (body ++ (blockClose ++ t)))
      = (commentStyle.scan (depth + 1) (body ++ (blockClose ++ t))).after blockOpen := by
    obtain ⟨b, hb, hminus⟩ := hhead
    obtain ⟨body, rfl⟩ := List.head?_eq_some_iff.1 hb
    let rest := Ascii.minus :: (b :: body ++ (blockClose ++ t))
    have hclosing : ¬ commentStyle.closing.isPrefixOf (Ascii.leftBrace :: rest) :=
      Bool.false_ne_true
    have hopening : commentStyle.opensHere (Ascii.leftBrace :: rest) := by
      simp [BlockCommentStyle.opensHere, commentStyle, blockOpen, rest, hminus]
    have hstep := BlockCommentStyle.scan_cons commentStyle depth Ascii.leftBrace rest
    rw [if_neg hclosing, if_pos hopening] at hstep
    exact hstep
  have hclose : commentStyle.scan (depth + 1) (blockClose ++ t)
      = (commentStyle.scan depth t).after blockClose :=
    BlockCommentStyle.scan_cons commentStyle (depth + 1) _ _
  rw [Burghard.commented, List.append_assoc, List.append_assoc, hopen, hbody, hclose, after_after,
    after_after, List.append_assoc]

end PassedOver

/-! ## The pieces of a comment -/

theorem CommentPiece.exists_head {s : Bytes} (h : CommentPiece s) (hdashes : ¬ dashes <+: s) :
    ∃ b ∈ s.head?, b ≠ Ascii.minus := by
  cases h with
  | comment h =>
    cases h
    exact ⟨Ascii.leftBrace, rfl, by decide⟩
  | line hmarker hbody =>
    obtain rfl | rfl := hmarker
    · exact absurd ((List.prefix_append _ _).trans (List.prefix_append _ _)) hdashes
    · exact ⟨Ascii.semicolon, rfl, by decide⟩
  | run hne hs =>
    obtain ⟨b, s, rfl⟩ := List.exists_cons_of_ne_nil hne
    have hb := hs b List.mem_cons_self
    exact ⟨b, rfl, fun h => hb (by simp [h])⟩

mutual

/-- **A scan goes over a comment as a whole**, with all comments inside it. -/
theorem NestedComment.passedOver {c : Bytes} : NestedComment c → PassedOver c
  | .intro hfirst hdashes hmore =>
    have hbody := hfirst.passedOver.append
      (.flatten fun piece hpiece => (hmore piece hpiece).passedOver)
    hbody.commented (exists_head_append (hfirst.exists_head hdashes) _)

/-- **A scan goes over a piece as a whole**, by induction along the grammar. -/
theorem CommentPiece.passedOver {s : Bytes} : CommentPiece s → PassedOver s
  | .comment h => h.passedOver
  | .line hmarker hbody => .line hmarker hbody
  | .run _ hs => .run fun b hb => by
    have h := hs b hb
    simp only [List.mem_cons, not_or] at h
    exact ⟨h.1, h.2.1, h.2.2.2.1⟩

end

/-! ## Programs -/

/-- The token of a comment that lacks its closing marker. -/
def openComment (body : Bytes) : Token :=
  .plain (blockOpen ++ body) (.blockComment {
    opening := blockOpen
    body
    closing := []
    nested := true
    terminated := false })

theorem PassedOver.scan_blockClose {body : Bytes} (h : PassedOver body) (t : Bytes) :
    commentStyle.scan 0 (body ++ (blockClose ++ t)) = ⟨body, blockClose, true⟩ := by
  rw [h, Burghard.scan_blockClose]
  exact congrArg (BlockCommentStyle.Span.mk · blockClose true) (List.append_nil body)

theorem PassedOver.scan_end {body : Bytes} (h : PassedOver body) :
    commentStyle.scan 0 body = ⟨body, [], false⟩ := by
  have hscan := h 0 []
  rw [List.append_nil, BlockCommentStyle.scan] at hscan
  rw [hscan]
  exact congrArg (BlockCommentStyle.Span.mk · [] false) (List.append_nil body)

theorem tokenize_openComment {body : Bytes} (h : PassedOver body)
    (hhead : ∃ b ∈ body.head?, b ≠ Ascii.minus) :
    tokenize next (blockOpen ++ body) = [openComment body] := by
  have htext : body = (commentStyle.scan 0 body).text ++ [] := by
    simp [h.scan_end, BlockCommentStyle.Span.text]
  have hread := read_blockOpen_append body
  rw [h.scan_end] at hread
  rw [tokenize_blockOpen hhead htext, tokenize, Token.blockComment, hread]
  simp [BlockComment.text, openComment]

/-- **Comments inside comments are matched exactly.** Without its own closing marker a comment goes
on to the end of the program. -/
theorem lex_nestedComment {c : Bytes} (h : NestedComment c) (hvalid : Utf8.isValid c) :
    ∃ body, c = commented body ∧ (∀ r, lex (c ++ r) = comment body :: lex r) ∧
      lex (blockOpen ++ body) = [openComment body] := by
  cases h with
  | @intro first more hfirst hdashes hmore =>
    have hbody : PassedOver (first ++ more.flatten) :=
      hfirst.passedOver.append (.flatten fun piece hpiece => (hmore piece hpiece).passedOver)
    have hhead := exists_head_append (hfirst.exists_head hdashes) more.flatten
    refine ⟨first ++ more.flatten, rfl, fun r => ?_, ?_⟩
    · rw [lex_append hvalid, tokenize_of_scan hhead (hbody.scan_blockClose _)]
      rfl
    · have hopen : Utf8.isValid (blockOpen ++ (first ++ more.flatten)) :=
        Utf8.isValid_of_append hvalid fun d hd => by
          obtain rfl := Option.mem_some.1 hd
          rfl
      rw [lex_of_isValid hopen, tokenize_openComment hbody hhead]

/-- A comment with another one inside, and with markers that line comments hide in both. -/
theorem lex_nestedComment_hiddenMarkers :
    let inner := commented (ascii ";-\x7d\n" ++ [ascii "b"].flatten)
    let c := commented (ascii "a" ++ [inner, ascii "--\x7b-\n"].flatten)
    NestedComment c ∧ Utf8.isValid c ∧ ∃ body, c = commented body ∧
      (∀ r, lex (c ++ r) = comment body :: lex r) ∧
      lex (blockOpen ++ body) = [openComment body] := by
  intro inner c
  have hletter : ∀ b, b ∉ [Ascii.minus, Ascii.leftBrace, Ascii.rightBrace, Ascii.semicolon] →
      CommentPiece [b] := fun b hb =>
    .run (List.cons_ne_nil _ _) (List.forall_mem_singleton.2 hb)
  have hinner : NestedComment inner := by
    have hline : CommentPiece ([Ascii.semicolon] ++ ascii "-\x7d" ++ [Ascii.lf]) :=
      .line (.inr rfl) (by decide)
    exact .intro hline (by decide) (List.forall_mem_singleton.2 (hletter 0x62 (by decide)))
  have hc : NestedComment c := by
    have hline : CommentPiece (dashes ++ ascii "\x7b-" ++ [Ascii.lf]) :=
      .line (.inl rfl) (by decide)
    refine .intro (hletter 0x61 (by decide)) (by decide) ?_
    exact List.forall_mem_cons.2 ⟨.comment hinner, List.forall_mem_singleton.2 hline⟩
  have hvalid : Utf8.isValid c := by cbv
  exact ⟨hc, hvalid, lex_nestedComment hc hvalid⟩

end WhitespaceAsm.Burghard

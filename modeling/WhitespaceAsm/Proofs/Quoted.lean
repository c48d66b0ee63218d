import WhitespaceAsm.Proofs.Bytes
import WhitespaceAsm.Quoted

/-!
# Where a literal ends

A literal and its closing quote stand at the start of the text after the opening quote, and a line
feed ends a literal in the same way as the end of the text.

* `quotedBody_isPrefix`, `closingQuote_isPrefix`, `closingQuote_eq`, **`quoted_isPrefix`**;
* `QuotedBytes`: what may stand in front of a closing quote; **`quotedBody_append_quote`**,
  **`quotedBytes_quotedBody`**: it is what a literal with an end has between its quotes;
  `quoted_eq_iff`, `exists_quoted_iff`: and its text says so.
-/

namespace WhitespaceAsm

variable (quote : UInt8)

theorem quotedBody_isPrefix (s : Bytes) : quotedBody quote s <+: s := by
  induction s using quotedBody.induct quote with
  | case1 => exact List.prefix_refl _
  | case2 b hend => rw [quotedBody, if_pos hend]; exact List.nil_prefix
  | case3 b hend => simp only [quotedBody, if_neg hend, List.prefix_rfl]
  | case4 b c rest hend => rw [quotedBody, if_pos hend]; exact List.nil_prefix
  | case5 b c rest hend hescape ih =>
    rw [quotedBody, if_neg hend, if_pos hescape]
    exact (List.prefix_cons_inj b).2 ((List.prefix_cons_inj c).2 ih)
  | case6 b c rest hend hescape ih =>
    rw [quotedBody, if_neg hend, if_neg hescape]
    exact (List.prefix_cons_inj b).2 ih

theorem closingQuote_isPrefix (s : Bytes) : closingQuote quote s <+: s :=
  (List.take_prefix 1 _).trans (List.takeWhile_prefix _)

theorem closingQuote_eq (s : Bytes) :
    closingQuote quote s = if closingQuote quote s = [] then [] else [quote] := by
  cases s with
  | nil => rfl
  | cons b rest =>
    by_cases hb : b = quote
    · simp [closingQuote, hb]
    · simp [closingQuote, hb]

/-- **A literal from its opening quote on** stands at the start of the text. -/
theorem quoted_isPrefix (rest : Bytes) :
    [quote] ++ quotedBody quote rest
      ++ closingQuote quote (rest.drop (quotedBody quote rest).length) <+: quote :: rest := by
  rw [List.append_assoc, List.singleton_append]
  exact (List.prefix_cons_inj quote).2
    (append_isPrefix (quotedBody_isPrefix quote rest) (closingQuote_isPrefix quote _))

/-! ## Line feeds -/

variable {quote}

theorem quotedBody_lf (t : Bytes) : quotedBody quote (Ascii.lf :: t) = [] := by
  cases t <;> simp [quotedBody]

theorem quotedBody_append_lf (s t : Bytes) :
    quotedBody quote (s ++ Ascii.lf :: t) = quotedBody quote s := by
  induction s using quotedBody.induct quote with
  | case1 => rw [List.nil_append, quotedBody_lf, quotedBody]
  | case2 b hend =>
    rw [List.cons_append, List.nil_append, quotedBody, quotedBody, if_pos hend, if_pos hend]
  | case3 b hend =>
    have hlf : ¬ (b = Ascii.backslash ∧ Ascii.lf ≠ Ascii.lf) := fun h => h.2 rfl
    rw [List.cons_append, List.nil_append, quotedBody, quotedBody, if_neg hend, if_neg hend,
      if_neg hlf, quotedBody_lf]
  | case4 b c rest hend =>
    rw [List.cons_append, List.cons_append, quotedBody, quotedBody, if_pos hend, if_pos hend]
  | case5 b c rest hend hescape ih =>
    rw [List.cons_append, List.cons_append, quotedBody, quotedBody, if_neg hend, if_neg hend,
      if_pos hescape, if_pos hescape, ih]
  | case6 b c rest hend hescape ih =>
    rw [List.cons_append] at ih
    rw [List.cons_append, List.cons_append, quotedBody, quotedBody, if_neg hend, if_neg hend,
      if_neg hescape, if_neg hescape, ih]

theorem closingQuote_append_lf (hquote : quote ≠ Ascii.lf) (s t : Bytes) :
    closingQuote quote (s ++ Ascii.lf :: t) = closingQuote quote s := by
  have hlf : (Ascii.lf == quote) = false := beq_eq_false_iff_ne.2 (Ne.symm hquote)
  rw [closingQuote, closingQuote, takeWhile_append_lf s t hlf]

theorem closingQuote_drop_append_lf (hquote : quote ≠ Ascii.lf) (s t : Bytes) :
    closingQuote quote ((s ++ Ascii.lf :: t).drop (quotedBody quote s).length)
      = closingQuote quote (s.drop (quotedBody quote s).length) := by
  rw [drop_append_lf (quotedBody_isPrefix quote s), closingQuote_append_lf hquote]

/-! ## Literals with an end -/

variable (quote) in
/-- **What stands between the quotes of a literal with an end**: bytes other than the quote, a
backslash and a line feed, and backslashes that take another byte along. -/
inductive QuotedBytes : Bytes → Prop
  | nil : QuotedBytes []
  | byte {b : UInt8} {s : Bytes} (hquote : b ≠ quote) (hbackslash : b ≠ Ascii.backslash)
      (hlf : b ≠ Ascii.lf) (h : QuotedBytes s) : QuotedBytes (b :: s)
  | escape {b : UInt8} {s : Bytes} (hlf : b ≠ Ascii.lf) (h : QuotedBytes s) :
      QuotedBytes (Ascii.backslash :: b :: s)

theorem QuotedBytes.append {s t : Bytes} (hs : QuotedBytes quote s) (ht : QuotedBytes quote t) :
    QuotedBytes quote (s ++ t) := by
  induction hs with
  | nil => exact ht
  | byte hquote hbackslash hlf _ ih => exact .byte hquote hbackslash hlf ih
  | escape hlf _ ih => exact .escape hlf ih

theorem QuotedBytes.of_notMem {s : Bytes} (hquote : quote ∉ s) (hbackslash : Ascii.backslash ∉ s)
    (hlf : Ascii.lf ∉ s) : QuotedBytes quote s := by
  induction s with
  | nil => exact .nil
  | cons b s ih =>
    rw [List.mem_cons, not_or] at hquote hbackslash hlf
    exact .byte (Ne.symm hquote.1) (Ne.symm hbackslash.1) (Ne.symm hlf.1)
      (ih hquote.2 hbackslash.2 hlf.2)

theorem QuotedBytes.head_ne (hquote : quote ≠ Ascii.backslash) {b : UInt8} {s : Bytes}
    (h : QuotedBytes quote (b :: s)) : b ≠ quote ∧ b ≠ Ascii.lf := by
  cases h with
  | byte hb _ hlf _ => exact ⟨hb, hlf⟩
  | escape _ _ => exact ⟨hquote.symm, by decide⟩

theorem endsInEscape_of_quotedBytes {s : Bytes} (h : QuotedBytes quote s) :
    endsInEscape s = false := by
  induction h with
  | nil => rfl
  | @byte b s _ hbackslash _ _ ih =>
    cases s with
    | nil => exact beq_false_of_ne hbackslash
    | cons c s => rw [endsInEscape, if_neg hbackslash, ih]
  | escape _ _ ih => rw [endsInEscape, if_pos rfl, ih]

theorem quotedBody_quote (t : Bytes) : quotedBody quote (quote :: t) = [] := by
  cases t <;> simp [quotedBody]

@[simp]
theorem closingQuote_quote (t : Bytes) : closingQuote quote (quote :: t) = [quote] := by
  simp [closingQuote]

/-- **A literal ends at the first quote** that no backslash takes along. -/
theorem quotedBody_append_quote (hquote : quote ≠ Ascii.backslash) {s : Bytes}
    (h : QuotedBytes quote s) (t : Bytes) : quotedBody quote (s ++ quote :: t) = s := by
  induction h with
  | nil => exact quotedBody_quote t
  | @byte b s hb hbackslash hlf _ ih =>
    have hend : ¬ (b = quote ∨ b = Ascii.lf) := not_or.2 ⟨hb, hlf⟩
    have hescape : ∀ c, ¬ (b = Ascii.backslash ∧ c ≠ Ascii.lf) := fun c h => hbackslash h.1
    obtain ⟨c, more, hmore⟩ : ∃ c more, s ++ quote :: t = c :: more :=
      List.exists_cons_of_ne_nil (by simp)
    rw [hmore] at ih
    rw [List.cons_append, hmore, quotedBody, if_neg hend, if_neg (hescape c), ih]
  | escape hlf _ ih =>
    have hend : ¬ (Ascii.backslash = quote ∨ Ascii.backslash = Ascii.lf) :=
      not_or.2 ⟨hquote.symm, by decide⟩
    rw [List.cons_append, List.cons_append, quotedBody, if_neg hend, if_pos ⟨rfl, hlf⟩, ih]

/-- **A literal with a closing quote** has no lone backslash in front of it. -/
theorem quotedBytes_quotedBody (hquote : quote ≠ Ascii.lf) {s : Bytes}
    (h : closingQuote quote (s.drop (quotedBody quote s).length) ≠ []) :
    QuotedBytes quote (quotedBody quote s) := by
  induction s using quotedBody.induct quote with
  | case1 => exact .nil
  | case2 b hend =>
    rw [quotedBody, if_pos hend]
    exact .nil
  | case3 b hend =>
    rw [quotedBody, if_neg hend] at h
    exact absurd rfl h
  | case4 b c rest hend =>
    rw [quotedBody, if_pos hend]
    exact .nil
  | case5 b c rest hend hescape ih =>
    rw [quotedBody, if_neg hend, if_pos hescape] at h ⊢
    obtain ⟨rfl, hlf⟩ := hescape
    exact .escape hlf (ih h)
  | case6 b c rest hend hescape ih =>
    rw [quotedBody, if_neg hend, if_neg hescape] at h ⊢
    rw [not_or] at hend
    refine .byte hend.1 ?_ hend.2 (ih h)
    rintro rfl
    obtain rfl : c = Ascii.lf := by simpa using hescape
    simp [quotedBody_lf, closingQuote, hquote.symm] at h

/-- **The text of a literal says whether it has an end** and what stands between its quotes. -/
theorem quoted_eq_iff (hbackslash : quote ≠ Ascii.backslash) (hlf : quote ≠ Ascii.lf)
    {rest body : Bytes} :
    QuotedBytes quote body ∧ [quote] ++ quotedBody quote rest
          ++ closingQuote quote (rest.drop (quotedBody quote rest).length)
        = [quote] ++ body ++ [quote] ↔
      quotedBody quote rest = body ∧
        closingQuote quote (rest.drop (quotedBody quote rest).length) ≠ [] := by
  constructor
  · rintro ⟨hbody, htext⟩
    obtain ⟨more, hmore⟩ := quoted_isPrefix quote rest
    rw [htext] at hmore
    obtain rfl : rest = body ++ quote :: more := by simpa using hmore.symm
    rw [quotedBody_append_quote hbackslash hbody, List.drop_left, closingQuote_quote]
    exact ⟨rfl, List.cons_ne_nil _ _⟩
  · rintro ⟨rfl, hclosing⟩
    refine ⟨quotedBytes_quotedBody hlf hclosing, ?_⟩
    rw [closingQuote_eq, if_neg hclosing]

theorem exists_quoted_iff (hbackslash : quote ≠ Ascii.backslash) (hlf : quote ≠ Ascii.lf)
    {p : Bytes → Prop} (hp : ∀ body, p body → QuotedBytes quote body) {rest : Bytes} :
    (∃ body, p body ∧ [quote] ++ quotedBody quote rest
          ++ closingQuote quote (rest.drop (quotedBody quote rest).length)
        = [quote] ++ body ++ [quote]) ↔
      p (quotedBody quote rest) ∧
        closingQuote quote (rest.drop (quotedBody quote rest).length) ≠ [] := by
  constructor
  · rintro ⟨body, hbody, htext⟩
    obtain ⟨rfl, hclosing⟩ := (quoted_eq_iff hbackslash hlf).1 ⟨hp body hbody, htext⟩
    exact ⟨hbody, hclosing⟩
  · rintro ⟨hbody, hclosing⟩
    exact ⟨_, hbody, ((quoted_eq_iff hbackslash hlf).2 ⟨rfl, hclosing⟩).2⟩

end WhitespaceAsm

import WhitespaceAsm.Proofs.Comment
import WhitespaceAsm.Proofs.Quoted
import WhitespaceAsm.Proofs.Utf8

/-!
# Cutting a text between characters

A part at the start of a well-formed text is well-formed itself unless it ends inside a character.
It does not when a byte that continues nothing stands on either side of the cut.

* **`isValid_of_append`**, `isValid_concat_of_append`: a cut in front of a byte that begins a
  character, and one behind an ASCII byte; `isValid_right`: what is left behind a cut;
* `isValid_quoted_iff`, **`isValid_quoted`**, `isValid_lineComment`: literals and line comments.
-/

namespace WhitespaceAsm

namespace Utf8

/-! ## Cuts -/

theorem isValid_byte {b : UInt8} (h : b < 0x80) : isValid [b] :=
  isValid_of_forall_lt (by simpa using h)

/-- **A cut in front of a byte that continues nothing**, or at the end of the text. -/
theorem isValid_of_append {x y : Bytes} (h : isValid (x ++ y))
    (hy : ∀ c ∈ y.head?, isContinuation c = false) : isValid x := by
  cases y with
  | nil => rwa [List.append_nil] at h
  | cons c y =>
    refine isValid_of_lt_validLength (hy c rfl) (t := y) ?_
    rw [isValid, beq_iff_eq] at h
    rw [h, List.length_append, List.length_cons]
    omega

theorem isValid_concat_of_append {x y : Bytes} {c : UInt8} (hc : c < 0x80)
    (h : isValid (x ++ c :: y)) : isValid (x ++ [c]) := by
  have hx : isValid x := isValid_of_append h fun d hd => by
    obtain rfl : c = d := by simpa using hd
    exact isContinuation_of_lt hc
  exact isValid_append hx (isValid_byte hc)

theorem isValid_right {x y : Bytes} (h : isValid (x ++ y)) (hx : isValid x) : isValid y := by
  rw [isValid, beq_iff_eq, validLength_append hx, List.length_append] at h
  rw [isValid, beq_iff_eq]
  omega

theorem isValid_of_isPrefix {x s : Bytes} (hx : x <+: s) (h : isValid s)
    (hs : ∀ c ∈ (s.drop x.length).head?, isContinuation c = false) : isValid x := by
  obtain ⟨y, rfl⟩ := hx
  rw [List.drop_left] at hs
  exact isValid_of_append h hs

/-! ## Runs of bytes -/

theorem isValid_cons_takeWhile {p : UInt8 → Bool} {b : UInt8} {rest : Bytes}
    (hp : ∀ c, p c = false → isContinuation c = false) (h : isValid (b :: rest)) :
    isValid (b :: rest.takeWhile p) := by
  refine isValid_of_isPrefix ((List.prefix_cons_inj b).2 (List.takeWhile_prefix p)) h
    fun c hc => hp c ?_
  exact not_of_drop_takeWhile (s := rest) (by simpa using hc)

theorem isValid_cons_takeUntil {stop : Bytes → Bool} {b : UInt8} {rest : Bytes}
    (hstop : ∀ c t, stop (c :: t) → isContinuation c = false) (h : isValid (b :: rest)) :
    isValid (b :: takeUntil stop rest) := by
  refine isValid_of_isPrefix ((List.prefix_cons_inj b).2 (takeUntil_isPrefix stop rest)) h
    fun c hc => ?_
  obtain ⟨t, ht⟩ := exists_stop_of_drop_takeUntil (s := rest) (by simpa using hc)
  exact hstop c t ht

theorem isValid_cons_takeWhile_of_lt {p : UInt8 → Bool} {b : UInt8} (hb : b < 0x80)
    (hp : ∀ c, p c → c < 0x80) (rest : Bytes) : isValid (b :: rest.takeWhile p) :=
  isValid_of_forall_lt (List.forall_mem_cons.2
    ⟨hb, fun c hc => hp c (List.mem_takeWhile_imp hc)⟩)

/-! ## Literals -/

theorem head?_drop_quotedBody {quote : UInt8} {s : Bytes} {c : UInt8}
    (hc : c ∈ (s.drop (quotedBody quote s).length).head?) : c = quote ∨ c = Ascii.lf := by
  induction s using quotedBody.induct quote with
  | case1 => cases hc
  | case2 b hend =>
    rw [quotedBody, if_pos hend] at hc
    obtain rfl : b = c := by simpa using hc
    exact hend
  | case3 b hend =>
    rw [quotedBody, if_neg hend] at hc
    cases hc
  | case4 b d rest hend =>
    rw [quotedBody, if_pos hend] at hc
    obtain rfl : b = c := by simpa using hc
    exact hend
  | case5 b d rest hend hescape ih =>
    rw [quotedBody, if_neg hend, if_pos hescape] at hc
    exact ih (by simpa using hc)
  | case6 b d rest hend hescape ih =>
    rw [quotedBody, if_neg hend, if_neg hescape] at hc
    exact ih (by simpa using hc)

/-- **What stands behind an opening quote** and ends in front of an ASCII byte. -/
theorem isValid_of_quote {quote : UInt8} (hquote : quote < 0x80) {body rest : Bytes}
    (hbody : body <+: rest) (hend : ∀ c ∈ (rest.drop body.length).head?, c < 0x80)
    (h : isValid (quote :: rest)) : isValid body := by
  have hrest : isValid rest := isValid_right (x := [quote]) h (isValid_byte hquote)
  exact isValid_of_isPrefix hbody hrest fun c hc => isContinuation_of_lt (hend c hc)

/-- **A literal with its quotes** is well-formed when what stands between them is. -/
theorem isValid_quoted_iff {quote : UInt8} (hquote : quote < 0x80) (body s : Bytes) :
    isValid ([quote] ++ body ++ closingQuote quote s) = isValid body := by
  have hclosing : ∀ c ∈ closingQuote quote s, c < 0x80 := by
    intro c hc
    obtain rfl : c = quote := by simpa using List.mem_takeWhile_imp (List.mem_of_mem_take hc)
    exact hquote
  rw [Bool.eq_iff_iff]
  constructor
  · intro h
    rw [List.append_assoc] at h
    refine isValid_of_append (isValid_right h (isValid_byte hquote)) fun c hc => ?_
    exact isContinuation_of_lt (hclosing c (List.mem_of_mem_head? hc))
  · intro h
    exact isValid_append (isValid_append (isValid_byte hquote) h) (isValid_of_forall_lt hclosing)

theorem isValid_quoted {quote : UInt8} (hquote : quote < 0x80) {rest : Bytes}
    (h : isValid (quote :: rest)) :
    isValid ([quote] ++ quotedBody quote rest
      ++ closingQuote quote (rest.drop (quotedBody quote rest).length)) := by
  rw [isValid_quoted_iff hquote]
  refine isValid_of_quote hquote (quotedBody_isPrefix quote rest) (fun c hc => ?_) h
  obtain rfl | rfl := head?_drop_quotedBody hc
  · exact hquote
  · decide

/-! ## Comments -/

theorem isValid_lineComment (n : Nat) {s : Bytes} (h : isValid s) :
    isValid (LineComment.read n s).text := by
  obtain ⟨more, e⟩ := LineComment.text_read_isPrefix n s
  rw [← e] at h
  refine isValid_of_append h fun c hc => ?_
  obtain ⟨t, rfl⟩ := List.head?_eq_some_iff.1 hc
  obtain rfl := LineComment.lf_of_text_read e.symm
  decide

end Utf8

end WhitespaceAsm

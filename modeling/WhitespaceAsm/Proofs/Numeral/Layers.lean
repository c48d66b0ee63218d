import Mathlib.Algebra.Group.Nat.Even
import WhitespaceAsm.Proofs.Numeral.Compatible
import WhitespaceAsm.Proofs.Numeral.Haskell

/-!
# What the framing of a Haskell numeral says

The sign and the errors of a framing are found layer by layer, from both ends of the literal. They
are told from the bytes that have been removed, however badly these fit together: the sign from the
numbers of minuses and pluses, the errors from these, from the order of signs and parentheses, and
from the numbers of parentheses. A parenthesis without a partner leaves a body that has none at the
other end, so that no later layer makes up for it.

* `Accounted`, `Accounted.of_layer`, **`Accounted.peel`**: what every layer keeps;
* `slices_ofLiteral`: where a literal is cut; **`framing_of_haskell`**: what the framing of every
  literal says, with `framing_of_haskell_malformed`.
-/

namespace WhitespaceAsm.Numeral

/-- **The sign of a framing** with so many minuses and pluses. -/
def Sign.ofCounts (minuses pluses : Nat) : Sign :=
  if minuses + pluses = 0 then .none else if Odd minuses then .minus else .plus

namespace Haskell

open Framing (openingMarks)

/-! ## Texts of spaces and marks -/

/-- **A text of spaces and marks**, or none. -/
inductive Filled (marks : Bytes) : Bytes → Prop
  | nil : Filled marks []
  | space {c : Nat} {s : Bytes} (hc : c ∈ spaces) (h : Filled marks s) :
    Filled marks (Utf8.encode c ++ s)
  | mark {b : UInt8} {s : Bytes} (hb : b ∈ marks) (h : Filled marks s) : Filled marks (b :: s)

/-- **A parenthesis opens behind a sign.** -/
def SignedParen (s : Bytes) : Prop :=
  ∃ before after, s = before ++ after ∧ (Ascii.minus ∈ before ∨ Ascii.plus ∈ before) ∧
    Ascii.leftParen ∈ after

theorem notMem_encode_of_mem_spaces :
    ∀ c ∈ spaces, ∀ b ∈ Utf8.encode c, b ∉ Ascii.rightParen :: openingMarks := by
  -- by the bytes of each space, and not by all bytes that there are
  have hall : ∀ c ∈ spaces, (Utf8.encode c).all (· ∉ Ascii.rightParen :: openingMarks) := by
    decide +kernel
  intro c hc b hb
  exact of_decide_eq_true (List.all_eq_true.1 (hall c hc) b hb)

theorem Blank.notMem {w : Bytes} (hw : Blank w) {b : UInt8}
    (hb : b ∈ Ascii.rightParen :: openingMarks) : b ∉ w := by
  obtain ⟨cs, hcs, rfl⟩ := hw
  intro hmem
  obtain ⟨c, hc, hmem⟩ := List.mem_flatMap.1 hmem
  exact notMem_encode_of_mem_spaces c (hcs c hc) b hmem hb

namespace Filled

variable {marks s t : Bytes}

theorem append (hs : Filled marks s) (ht : Filled marks t) : Filled marks (s ++ t) := by
  induction hs with
  | nil => exact ht
  | space hc _ ih =>
    rw [List.append_assoc]
    exact .space hc ih
  | mark hb _ ih => exact .mark hb ih

theorem of_blank {w : Bytes} (hw : Blank w) : Filled marks w := by
  obtain ⟨cs, hcs, rfl⟩ := hw
  induction cs with
  | nil => exact .nil
  | cons c cs ih =>
    obtain ⟨hc, hcs⟩ := List.forall_mem_cons.1 hcs
    exact .space hc (ih hcs)

theorem singleton {b : UInt8} (hb : b ∈ marks) : Filled marks [b] := .mark hb .nil

theorem notMem (h : Filled marks s) {b : UInt8} (hb : b ∈ Ascii.rightParen :: openingMarks)
    (hnot : b ∉ marks) : b ∉ s := by
  induction h with
  | nil => exact List.not_mem_nil
  | space hc _ ih =>
    exact fun hmem => (List.mem_append.1 hmem).elim
      (fun hmem => notMem_encode_of_mem_spaces _ hc b hmem hb) ih
  | mark hb' _ ih =>
    exact fun hmem => (List.mem_cons.1 hmem).elim (fun heq => hnot (heq ▸ hb')) ih

end Filled

namespace SignedParen

variable {s t : Bytes}

theorem append_right (h : SignedParen s) (t : Bytes) : SignedParen (s ++ t) := by
  obtain ⟨before, after, rfl, hsign, hparen⟩ := h
  exact ⟨before, after ++ t, List.append_assoc .., hsign, List.mem_append_left t hparen⟩

theorem append_iff (ht : Ascii.leftParen ∉ t) : SignedParen (s ++ t) ↔ SignedParen s := by
  refine ⟨?_, fun h => h.append_right t⟩
  rintro ⟨before, after, hsplit, hsign, hparen⟩
  obtain ⟨u, rfl, rfl⟩ | ⟨u, rfl, rfl⟩ := List.append_eq_append_iff.1 hsplit
  · exact absurd (List.mem_append_right u hparen) ht
  · exact ⟨before, u, rfl, hsign, (List.mem_append.1 hparen).resolve_right ht⟩

theorem signed (h : SignedParen s) : Ascii.minus ∈ s ∨ Ascii.plus ∈ s := by
  obtain ⟨before, after, rfl, hsign, -⟩ := h
  exact hsign.imp (List.mem_append_left after) (List.mem_append_left after)

theorem concat_iff : SignedParen (s ++ [Ascii.leftParen]) ↔ Ascii.minus ∈ s ∨ Ascii.plus ∈ s := by
  refine ⟨?_, fun hsign => ⟨s, _, rfl, hsign, List.mem_singleton_self _⟩⟩
  rintro ⟨before, after, hsplit, hsign, hparen⟩
  have hsub : before <+: s := by
    obtain ⟨u, hbefore, hlast⟩ | ⟨u, hs, -⟩ := List.append_eq_append_iff.1 hsplit
    · have hafter := List.length_pos_of_mem hparen
      have hlength := congrArg List.length hlast
      rw [List.length_append, List.length_singleton] at hlength
      obtain rfl : u = [] := List.eq_nil_of_length_eq_zero (by omega)
      rw [hbefore, List.append_nil]
    · exact hs ▸ List.prefix_append before u
  exact hsign.imp (hsub.subset ·) (hsub.subset ·)

end SignedParen

theorem Blank.count_eq_zero {w : Bytes} (hw : Blank w) {b : UInt8}
    (hb : b ∈ Ascii.rightParen :: openingMarks) : w.count b = 0 :=
  List.count_eq_zero_of_not_mem (hw.notMem hb)

theorem blank_takeChars (s : Bytes) : Blank (Utf8.takeChars isHaskellSpace s) :=
  blank_iff_run.2 (Utf8.run_takeChars _ s)

theorem blank_drop_trimEnd (s : Bytes) : Blank (s.drop (Utf8.trimEnd isHaskellSpace s).length) := by
  obtain ⟨w, hw, hsplit⟩ := Utf8.exists_run_trimEnd isHaskellSpace s
  have hdrop : (Utf8.trimEnd isHaskellSpace s ++ w).drop (Utf8.trimEnd isHaskellSpace s).length
      = w := List.drop_left
  rw [← hsplit] at hdrop
  rw [hdrop]
  exact blank_iff_run.2 hw

/-! ## The sign and its errors -/

theorem ofCounts_succ_left (minuses pluses : Nat) :
    Sign.ofCounts (minuses + 1) pluses =
      if Sign.ofCounts minuses pluses = .minus then .plus else .minus := by
  have hodd : Odd (minuses + 1) ↔ ¬ Odd minuses := Nat.odd_add_one
  have hzero : minuses = 0 → ¬ Odd minuses := by
    rintro rfl
    decide
  unfold Sign.ofCounts
  split_ifs <;> simp_all

theorem ofCounts_succ_right (minuses pluses : Nat) :
    Sign.ofCounts minuses (pluses + 1) =
      if Sign.ofCounts minuses pluses = .none then .plus else Sign.ofCounts minuses pluses := by
  have hzero : minuses = 0 → ¬ Odd minuses := by
    rintro rfl
    decide
  unfold Sign.ofCounts
  split_ifs <;> simp_all

/-- **What is told from the start of a literal.** -/
structure Opens (sign : Sign) (errors : FlagSet Error) (opening : Bytes) : Prop where
  filled : Filled openingMarks opening
  sign_eq : sign = Sign.ofCounts (opening.count Ascii.minus) (opening.count Ascii.plus)
  invalidSign : .invalidSign ∈ errors ↔ 0 < opening.count Ascii.plus ∨
    2 ≤ opening.count Ascii.minus + opening.count Ascii.plus ∨ SignedParen opening

theorem Sign.ofCounts_eq_none_iff {minuses pluses : Nat} :
    Sign.ofCounts minuses pluses = .none ↔ minuses + pluses = 0 := by
  unfold Sign.ofCounts
  split_ifs with hzero hodd
  · exact iff_of_true rfl hzero
  · exact iff_of_false nofun hzero
  · exact iff_of_false nofun hzero

namespace Opens

variable {sign : Sign} {errors : FlagSet Error} {opening w : Bytes}
  (h : Opens sign errors opening)

include h

theorem signed_iff : sign ≠ .none ↔ opening.count Ascii.minus + opening.count Ascii.plus ≠ 0 := by
  rw [h.sign_eq, ne_eq, Sign.ofCounts_eq_none_iff]

theorem blank (hw : Blank w) : Opens sign errors (opening ++ w) where
  filled := h.filled.append (.of_blank hw)
  sign_eq := by
    rw [List.count_append, List.count_append, hw.count_eq_zero (by decide),
      hw.count_eq_zero (by decide)]
    exact h.sign_eq
  invalidSign := by
    rw [List.count_append, List.count_append, hw.count_eq_zero (by decide),
      hw.count_eq_zero (by decide), SignedParen.append_iff (hw.notMem (by decide))]
    exact h.invalidSign

theorem minus : Opens (if sign = .minus then .plus else .minus)
    (errors ∪ flagIf (sign != .none) .invalidSign) (opening ++ [Ascii.minus]) where
  filled := h.filled.append (.singleton (by decide))
  sign_eq := by
    have hplus : [Ascii.minus].count Ascii.plus = 0 := by decide
    rw [List.count_append, List.count_append, List.count_singleton_self, hplus, add_zero,
      ofCounts_succ_left, ← h.sign_eq]
  invalidSign := by
    have hplus : [Ascii.minus].count Ascii.plus = 0 := by decide
    rw [FlagSet.mem_union, mem_flagIf_error, bne_iff_ne, h.invalidSign, h.signed_iff,
      SignedParen.append_iff (by decide), List.count_append, List.count_append,
      List.count_singleton_self, hplus]
    grind

theorem plus : Opens (if sign = .none then .plus else sign) (errors ∪ {.invalidSign})
    (opening ++ [Ascii.plus]) where
  filled := h.filled.append (.singleton (by decide))
  sign_eq := by
    have hminus : [Ascii.plus].count Ascii.minus = 0 := by decide
    rw [List.count_append, List.count_append, List.count_singleton_self, hminus, add_zero,
      ofCounts_succ_right, ← h.sign_eq]
  invalidSign := by
    refine iff_of_true (FlagSet.mem_union.2 (.inr (FlagSet.mem_singleton_self _))) (.inl ?_)
    rw [List.count_append, List.count_singleton_self]
    exact Nat.succ_pos _

theorem leftParen : Opens sign (errors ∪ flagIf (sign != .none) .invalidSign)
    (opening ++ [Ascii.leftParen]) where
  filled := h.filled.append (.singleton (by decide))
  sign_eq := by
    have hminus : [Ascii.leftParen].count Ascii.minus = 0 := by decide
    have hplus : [Ascii.leftParen].count Ascii.plus = 0 := by decide
    rw [List.count_append, List.count_append, hminus, hplus]
    exact h.sign_eq
  invalidSign := by
    have hminus : [Ascii.leftParen].count Ascii.minus = 0 := by decide
    have hplus : [Ascii.leftParen].count Ascii.plus = 0 := by decide
    have hsigned : Ascii.minus ∈ opening ∨ Ascii.plus ∈ opening ↔ sign ≠ .none := by
      rw [h.signed_iff, ← List.count_pos_iff, ← List.count_pos_iff]
      omega
    rw [FlagSet.mem_union, mem_flagIf_error, bne_iff_ne, h.invalidSign, SignedParen.concat_iff,
      hsigned, h.signed_iff, List.count_append, List.count_append, hminus, hplus]
    have hbehind : SignedParen opening → _ := fun hparen =>
      h.signed_iff.1 (hsigned.1 hparen.signed)
    grind

theorem unpaired : Opens sign (errors ∪ {.unpairedParen}) opening where
  filled := h.filled
  sign_eq := h.sign_eq
  invalidSign := by
    rw [FlagSet.mem_union, FlagSet.mem_singleton, Error.bit_inj, or_iff_left (by decide)]
    exact h.invalidSign

end Opens

/-! ## The ends of a body -/

/-- **No space stands at the ends** of a body. -/
structure Trimmed (s : Bytes) : Prop where
  start : ∀ c ∈ spaces, ¬ Utf8.encode c <+: s
  finish : ∀ c ∈ spaces, ¬ Utf8.encode c <:+ s

/-- **The parentheses that have been removed**: either all of them had partners, or more of one kind
have been removed, and the body has none of the other at its end. -/
inductive Paired (f : Framing) : Prop
  | balanced (herror : .unpairedParen ∉ f.errors)
      (heq : f.opening.count Ascii.leftParen = f.closing.count Ascii.rightParen)
  | opened (herror : .unpairedParen ∈ f.errors)
      (hlt : f.closing.count Ascii.rightParen < f.opening.count Ascii.leftParen)
      (hlast : f.body.getLast? ≠ some Ascii.rightParen)
  | closed (herror : .unpairedParen ∈ f.errors)
      (hlt : f.opening.count Ascii.leftParen < f.closing.count Ascii.rightParen)
      (hhead : ∀ b ∈ openingMarks, f.body.head? ≠ some b)

theorem isHaskellSpace_of_mem {c : Nat} (hc : c ∈ spaces) :
    c.isValidChar ∧ isHaskellSpace c := by
  refine ⟨?_, isHaskellSpace_iff.2 hc⟩
  revert c
  decide

theorem start_trimStart {f : Framing} : ∀ c ∈ spaces, ¬ Utf8.encode c <+: f.trimStart.body :=
  fun _ hc =>
    have h := isHaskellSpace_of_mem hc
    Utf8.not_encode_isPrefix_drop h.1 h.2 f.body

theorem finish_trimEnd {f : Framing} : ∀ c ∈ spaces, ¬ Utf8.encode c <:+ f.trimEnd.body :=
  fun _ hc =>
    have h := isHaskellSpace_of_mem hc
    Utf8.not_encode_isSuffix_trimEnd h.1 h.2 f.body

theorem body_trimStart_isSuffix (f : Framing) : f.trimStart.body <:+ f.body :=
  List.drop_suffix _ f.body

theorem body_trimEnd_isPrefix (f : Framing) : f.trimEnd.body <+: f.body :=
  Utf8.trimEnd_isPrefix _ f.body

theorem getLast?_ne_of_isSuffix {s t : Bytes} {b : UInt8} (h : t <:+ s)
    (hlast : s.getLast? ≠ some b) : t.getLast? ≠ some b := by
  intro ht
  obtain ⟨u, rfl⟩ := h
  obtain ⟨v, rfl⟩ := List.getLast?_eq_some_iff.1 ht
  exact hlast (by rw [← List.append_assoc, List.getLast?_concat])

theorem head?_ne_of_isPrefix {s t : Bytes} {b : UInt8} (h : t <+: s)
    (hhead : s.head? ≠ some b) : t.head? ≠ some b := by
  intro ht
  obtain ⟨u, rfl⟩ := h
  obtain ⟨v, rfl⟩ := List.head?_eq_some_iff.1 ht
  exact hhead rfl

namespace Trimmed

theorem trimStart {b : UInt8} {rest : Bytes} (h : Trimmed (b :: rest)) {g : Framing}
    (hg : g.body = rest) : Trimmed g.trimStart.body where
  start := start_trimStart
  finish c hc hspace := by
    have hsuffix : rest <:+ b :: rest := List.suffix_cons b rest
    exact h.finish c hc (hspace.trans ((body_trimStart_isSuffix g).trans (hg ▸ hsuffix)))

theorem trimEnd {s : Bytes} (h : Trimmed s) {g : Framing} (hg : g.body = s.dropLast) :
    Trimmed g.trimEnd.body where
  start c hc hspace := by
    have hprefix : s.dropLast <+: s := List.dropLast_prefix s
    exact h.start c hc (hspace.trans ((body_trimEnd_isPrefix g).trans (hg ▸ hprefix)))
  finish := finish_trimEnd

theorem trim (f : Framing) : Trimmed f.trimStart.trimEnd.body where
  start c hc hspace := start_trimStart c hc (hspace.trans (body_trimEnd_isPrefix f.trimStart))
  finish := finish_trimEnd

theorem of_layer {f g : Framing} (h : Trimmed f.body) (hlayer : f.Layer g) : Trimmed g.body := by
  cases hlayer with
  | minus hbody => exact trimStart (hbody ▸ h) rfl
  | plus hbody => exact trimStart (hbody ▸ h) rfl
  | pair hbody => exact trim _
  | left hbody hlast => exact trimStart (hbody ▸ h) rfl
  | right hbody hhead => exact h.trimEnd rfl

end Trimmed

/-! ## Parentheses -/

theorem count_opening_trimStart {f : Framing} {b : UInt8}
    (hb : b ∈ Ascii.rightParen :: openingMarks) :
    f.trimStart.opening.count b = f.opening.count b := by
  rw [Framing.trimStart, List.count_append, (blank_takeChars _).count_eq_zero hb, add_zero]

theorem count_closing_trimEnd {f : Framing} {b : UInt8}
    (hb : b ∈ Ascii.rightParen :: openingMarks) :
    f.trimEnd.closing.count b = f.closing.count b := by
  rw [Framing.trimEnd, List.count_append, (blank_drop_trimEnd _).count_eq_zero hb, zero_add]

theorem unpairedParen_mem_flagIf {c : Prop} [Decidable c] {errors : FlagSet Error} :
    .unpairedParen ∈ errors ∪ flagIf c .invalidSign ↔ .unpairedParen ∈ errors := by
  rw [FlagSet.mem_union, mem_flagIf_error]
  exact or_iff_left fun h => nomatch h.2

namespace Paired

variable {f g : Framing} (h : Paired f)

include h

theorem of_sign {b : UInt8} {rest : Bytes} (hbody : f.body = b :: rest) (hb : b ∈ openingMarks)
    (hg : g.body <:+ rest) (herrors : .unpairedParen ∈ g.errors ↔ .unpairedParen ∈ f.errors)
    (hopening : g.opening.count Ascii.leftParen = f.opening.count Ascii.leftParen)
    (hclosing : g.closing = f.closing) : Paired g := by
  cases h with
  | balanced herror heq => exact .balanced (by rwa [herrors]) (by rwa [hopening, hclosing])
  | opened herror hlt hlast =>
    refine .opened (herrors.2 herror) (by rwa [hopening, hclosing]) ?_
    exact getLast?_ne_of_isSuffix (hg.trans (hbody ▸ List.suffix_cons b rest)) hlast
  | closed herror hlt hhead => exact absurd (by rw [hbody]; rfl) (hhead b hb)

theorem of_pair {rest : Bytes} (hbody : f.body = Ascii.leftParen :: (rest ++ [Ascii.rightParen])) :
    Paired (f.peelPair (rest ++ [Ascii.rightParen])) := by
  cases h with
  | balanced herror heq =>
    refine .balanced (fun hmem => herror (unpairedParen_mem_flagIf.1 hmem)) ?_
    rw [Framing.peelPair, count_closing_trimEnd (by decide)]
    refine (count_opening_trimStart (by decide)).trans ?_
    dsimp only [Framing.trimStart]
    rw [List.count_append, List.count_singleton_self, List.count_cons_self, heq]
  | opened herror hlt hlast =>
    refine absurd ?_ hlast
    rw [hbody, ← List.cons_append, List.getLast?_concat]
  | closed herror hlt hhead => exact absurd (by rw [hbody]; rfl) (hhead Ascii.leftParen (by decide))

theorem of_left {rest : Bytes} (hbody : f.body = Ascii.leftParen :: rest)
    (hlast : f.body.getLast? ≠ some Ascii.rightParen) : Paired (f.peelLeft rest) := by
  have herror : .unpairedParen ∈ (f.peelLeft rest).errors :=
    FlagSet.mem_union.2 (.inr (FlagSet.mem_singleton_self _))
  have hcount : (f.peelLeft rest).opening.count Ascii.leftParen
      = f.opening.count Ascii.leftParen + 1 := by
    rw [Framing.peelLeft, count_opening_trimStart (by decide), List.count_append,
      List.count_singleton_self]
  have hsuffix : (f.peelLeft rest).body <:+ f.body :=
    (body_trimStart_isSuffix _).trans (hbody ▸ List.suffix_cons _ rest)
  have hopened : f.closing.count Ascii.rightParen ≤ f.opening.count Ascii.leftParen := by
    cases h with
    | balanced _ heq => exact heq.ge
    | opened _ hlt _ => exact hlt.le
    | closed _ _ hhead => exact absurd (by rw [hbody]; rfl) (hhead Ascii.leftParen (by decide))
  exact .opened herror (hcount ▸ Nat.lt_succ_of_le hopened) (getLast?_ne_of_isSuffix hsuffix hlast)

theorem of_right {rest : Bytes} (hbody : f.body = rest ++ [Ascii.rightParen])
    (hhead : ∀ b ∈ openingMarks, f.body.head? ≠ some b) : Paired f.peelRight := by
  have herror : .unpairedParen ∈ f.peelRight.errors :=
    FlagSet.mem_union.2 (.inr (FlagSet.mem_singleton_self _))
  have hcount : f.peelRight.closing.count Ascii.rightParen
      = f.closing.count Ascii.rightParen + 1 := by
    rw [Framing.peelRight, count_closing_trimEnd (by decide), List.count_cons_self]
  have hprefix : f.peelRight.body <+: f.body :=
    (body_trimEnd_isPrefix _).trans (List.dropLast_prefix f.body)
  have hclosed : f.opening.count Ascii.leftParen ≤ f.closing.count Ascii.rightParen := by
    cases h with
    | balanced _ heq => exact heq.le
    | opened _ _ hlast => exact absurd (by rw [hbody, List.getLast?_concat]) hlast
    | closed _ hlt _ => exact hlt.le
  exact .closed herror (hcount ▸ Nat.lt_succ_of_le hclosed)
    fun b hb => head?_ne_of_isPrefix hprefix (hhead b hb)

theorem of_layer (hlayer : f.Layer g) : Paired g := by
  cases hlayer with
  | minus hbody =>
    refine h.of_sign hbody (by decide) (body_trimStart_isSuffix _) unpairedParen_mem_flagIf ?_ rfl
    rw [Framing.peelMinus, count_opening_trimStart (by decide), List.count_append]
    rfl
  | plus hbody =>
    refine h.of_sign hbody (by decide) (body_trimStart_isSuffix _) ?_ ?_ rfl
    · refine FlagSet.mem_union.trans (or_iff_left fun hmem => ?_)
      cases Error.bit_inj.1 (FlagSet.mem_singleton.1 hmem)
    · rw [Framing.peelPlus, count_opening_trimStart (by decide), List.count_append]
      rfl
  | pair hbody => exact h.of_pair hbody
  | left hbody hlast => exact h.of_left hbody hlast
  | right hbody hhead => exact h.of_right hbody hhead

/-- **A parenthesis has no partner** just where their numbers differ. -/
theorem unpairedParen_iff : .unpairedParen ∈ f.errors ↔
    f.opening.count Ascii.leftParen ≠ f.closing.count Ascii.rightParen := by
  cases h with
  | balanced herror heq => exact iff_of_false herror (not_not_intro heq)
  | opened herror hlt _ => exact iff_of_true herror hlt.ne'
  | closed herror hlt _ => exact iff_of_true herror hlt.ne

end Paired

/-! ## All layers -/

/-- **What the removed parts of a literal say**, and how its body ends. -/
structure Accounted (f : Framing) : Prop where
  opens : Opens f.sign f.errors f.opening
  closes : Filled [Ascii.rightParen] f.closing
  trimmed : Trimmed f.body
  paired : Paired f

namespace Accounted

variable {f g : Framing}

theorem trim (literal : Bytes) : Accounted (Framing.trimEnd (Framing.trimStart { body := literal }))
    where
  opens := by
    have hnil : Opens .none ∅ [] :=
      ⟨.nil, rfl, iff_of_false (FlagSet.not_mem_empty _) (by simp [SignedParen])⟩
    exact hnil.blank (blank_takeChars literal)
  closes := (Filled.of_blank (blank_drop_trimEnd _)).append .nil
  trimmed := .trim _
  paired := by
    refine .balanced (FlagSet.not_mem_empty _) ?_
    rw [count_closing_trimEnd (by decide)]
    exact count_opening_trimStart (by decide)

theorem of_layer (h : Accounted f) (hlayer : f.Layer g) : Accounted g where
  opens := by
    cases hlayer with
    | minus hbody => exact h.opens.minus.blank (blank_takeChars _)
    | plus hbody => exact h.opens.plus.blank (blank_takeChars _)
    | pair hbody => exact h.opens.leftParen.blank (blank_takeChars _)
    | left hbody hlast => exact h.opens.leftParen.unpaired.blank (blank_takeChars _)
    | right hbody hhead => exact h.opens.unpaired
  closes := by
    have hclosing : Filled [Ascii.rightParen] (Ascii.rightParen :: f.closing) :=
      .mark (List.mem_singleton_self _) h.closes
    cases hlayer with
    | minus hbody => exact h.closes
    | plus hbody => exact h.closes
    | pair hbody => exact (Filled.of_blank (blank_drop_trimEnd _)).append hclosing
    | left hbody hlast => exact h.closes
    | right hbody hhead => exact (Filled.of_blank (blank_drop_trimEnd _)).append hclosing
  trimmed := h.trimmed.of_layer hlayer
  paired := h.paired.of_layer hlayer

/-- **All layers are accounted for**, and none is left. -/
theorem peel (h : Accounted f) : Accounted f.peel ∧ f.peel.peelOne? = none := by
  induction f using Framing.peel.induct with
  | case1 f hnone =>
    rw [Framing.peel_of_none hnone]
    exact ⟨h, hnone⟩
  | case2 f g hsome ih =>
    rw [Framing.peel_of_some hsome]
    exact ih (h.of_layer (Framing.layer_of_peelOne? hsome))

end Accounted

theorem accounted_ofHaskell (literal : Bytes) :
    Accounted (Framing.ofHaskell literal) ∧ (Framing.ofHaskell literal).peelOne? = none :=
  (Accounted.trim literal).peel

/-- **The sign and its errors** are told from both parts, as only the first has signs. -/
theorem Opens.framing {sign : Sign} {errors : FlagSet Error} {opening closing : Bytes}
    (h : Opens sign errors opening) (hclosing : Filled [Ascii.rightParen] closing) :
    sign = Sign.ofCounts ((opening ++ closing).count Ascii.minus)
        ((opening ++ closing).count Ascii.plus) ∧
      (.invalidSign ∈ errors ↔ Ascii.plus ∈ opening ++ closing ∨
        2 ≤ (opening ++ closing).count Ascii.minus + (opening ++ closing).count Ascii.plus ∨
          SignedParen (opening ++ closing)) := by
  have hcount : ∀ b ∈ openingMarks, (opening ++ closing).count b = opening.count b := by
    intro b hb
    have hnot : b ∉ [Ascii.rightParen] := fun hmem =>
      absurd (List.mem_singleton.1 hmem ▸ hb) (by decide)
    rw [List.count_append, List.count_eq_zero_of_not_mem
      (hclosing.notMem (List.mem_cons_of_mem _ hb) hnot), add_zero]
  rw [← List.count_pos_iff, hcount _ (by decide), hcount _ (by decide),
    SignedParen.append_iff (hclosing.notMem (by decide) (by decide))]
  exact ⟨h.sign_eq, h.invalidSign⟩

/-- **Parentheses** are told from both parts, as each has those of one kind. -/
theorem Accounted.unpairedParen_iff {f : Framing} (h : Accounted f) : .unpairedParen ∈ f.errors ↔
    (f.opening ++ f.closing).count Ascii.leftParen
      ≠ (f.opening ++ f.closing).count Ascii.rightParen := by
  rw [List.count_append, List.count_append,
    List.count_eq_zero_of_not_mem (h.closes.notMem (b := Ascii.leftParen) (by decide) (by decide)),
    List.count_eq_zero_of_not_mem
      (h.opens.filled.notMem (b := Ascii.rightParen) (by decide) (by decide)), add_zero, zero_add]
  exact h.paired.unpairedParen_iff

end Haskell

theorem Sign.ofCounts_iff {s : Bytes} {sign : Sign}
    (h : sign = Sign.ofCounts (s.count Ascii.minus) (s.count Ascii.plus)) :
    (sign = .none ↔ Ascii.minus ∉ s ∧ Ascii.plus ∉ s) ∧
      (sign = .minus ↔ Odd (s.count Ascii.minus)) ∧
      (sign = .plus ↔ (Ascii.minus ∈ s ∨ Ascii.plus ∈ s) ∧ ¬ Odd (s.count Ascii.minus)) := by
  have hminus := List.count_eq_zero (l := s) (a := Ascii.minus)
  have hplus := List.count_eq_zero (l := s) (a := Ascii.plus)
  have hzero : s.count Ascii.minus = 0 → ¬ Odd (s.count Ascii.minus) := fun h => by
    rw [h]
    decide
  rw [h, Sign.ofCounts]
  split_ifs <;> grind

/-- **A literal is cut** at the ends of its framing. -/
theorem slices_ofLiteral (g : Grammar) (literal : Bytes) :
    let l := Layout.ofLiteral g literal
    let f := Framing.ofLiteral g.signs literal
    (l.bodyStart ≤ l.bodyEnd ∧ l.bodyEnd ≤ literal.length) ∧
      literal.take l.bodyStart = f.opening ∧
      (literal.take l.bodyEnd).drop l.bodyStart = f.body ∧ literal.drop l.bodyEnd = f.closing := by
  intro l f
  have hwhole : literal = f.opening ++ f.body ++ f.closing := by
    rw [List.append_assoc]
    exact (Framing.whole_ofLiteral g.signs literal).symm
  have hstart : l.bodyStart = f.opening.length := rfl
  have hend : l.bodyEnd = (f.opening ++ f.body).length := by
    rw [← (Marked.cuts_ofBody g f.body).body]
    simp only [Layout.bodyEnd, Layout.digitsEnd, Layout.digitsStart, hstart, List.length_append,
      Nat.add_assoc]
    rfl
  refine ⟨⟨?_, ?_⟩, ?_, ?_, ?_⟩
  · rw [hstart, hend, List.length_append]
    exact Nat.le_add_right _ _
  · have hprefix : f.opening ++ f.body <+: literal := ⟨f.closing, hwhole.symm⟩
    exact hend ▸ hprefix.length_le
  · rw [hstart, hwhole, List.append_assoc, List.take_left]
  · rw [hend, hstart, hwhole, List.take_left, List.drop_left]
  · rw [hend, hwhole, List.drop_left]

/-- **What the framing of a Haskell numeral says**, for every literal. The sign, and the errors of
signs and parentheses, are told from the bytes around the body alone. -/
theorem framing_of_haskell {g : Grammar} (hsigns : g.signs = .haskell) (literal : Bytes) :
    let l := Layout.ofLiteral g literal
    let opening := literal.take l.bodyStart
    let body := (literal.take l.bodyEnd).drop l.bodyStart
    let closing := literal.drop l.bodyEnd
    let framing := opening ++ closing
    (l.bodyStart ≤ l.bodyEnd ∧ l.bodyEnd ≤ literal.length) ∧
      Haskell.Filled [Ascii.minus, Ascii.plus, Ascii.leftParen] opening ∧
      Haskell.Filled [Ascii.rightParen] closing ∧
      (∀ c ∈ Haskell.spaces, ¬ Utf8.encode c <+: body ∧ ¬ Utf8.encode c <:+ body) ∧
      (∀ b ∈ [Ascii.minus, Ascii.plus, Ascii.leftParen], body.head? ≠ some b) ∧
      body.getLast? ≠ some Ascii.rightParen ∧
      (l.sign = .none ↔ Ascii.minus ∉ framing ∧ Ascii.plus ∉ framing) ∧
      (l.sign = .minus ↔ Odd (framing.count Ascii.minus)) ∧
      (l.sign = .plus ↔
        (Ascii.minus ∈ framing ∨ Ascii.plus ∈ framing) ∧ ¬ Odd (framing.count Ascii.minus)) ∧
      (.unpairedParen ∈ l.errors ↔
        framing.count Ascii.leftParen ≠ framing.count Ascii.rightParen) ∧
      (.invalidSign ∈ l.errors ↔ Ascii.plus ∈ framing ∨
        2 ≤ framing.count Ascii.minus + framing.count Ascii.plus ∨
        Haskell.SignedParen framing) := by
  intro l opening body closing framing
  have hf : Framing.ofLiteral g.signs literal = Framing.ofHaskell literal := by
    rw [hsigns]
    rfl
  obtain ⟨hbounds, hopening, hbody, hclosing⟩ := slices_ofLiteral g literal
  rw [hf] at hopening hbody hclosing
  have hframing : framing
      = (Framing.ofHaskell literal).opening ++ (Framing.ofHaskell literal).closing :=
    congrArg₂ (· ++ ·) hopening hclosing
  have herrors : ∀ e : Error, e ≠ .invalidBase →
      (e ∈ l.errors ↔ e ∈ (Framing.ofHaskell literal).errors) := by
    intro e he
    refine FlagSet.mem_union.trans ((or_iff_left fun hmem => ?_).trans (by rw [hf]))
    exact he (mem_flagIf_error.1 hmem).2.symm
  obtain ⟨h, hnone⟩ := Haskell.accounted_ofHaskell literal
  obtain ⟨hhead, hlast⟩ := Framing.ends_of_peelOne? hnone
  obtain ⟨hsign, hinvalid⟩ := h.opens.framing h.closes
  have hsigned : l.sign = (Framing.ofHaskell literal).sign := congrArg Framing.sign hf
  obtain ⟨hsignNone, hsignMinus, hsignPlus⟩ := Sign.ofCounts_iff hsign
  rw [show opening = _ from hopening, show body = _ from hbody, show closing = _ from hclosing,
    hframing, hsigned, herrors _ (by decide), herrors _ (by decide)]
  exact ⟨hbounds, h.opens.filled, h.closes,
    fun c hc => ⟨h.trimmed.start c hc, h.trimmed.finish c hc⟩, hhead, hlast,
    hsignNone, hsignMinus, hsignPlus, h.unpairedParen_iff, hinvalid⟩

/-- A literal with a sign too many, a parenthesis behind a sign and another without a partner. -/
theorem framing_of_haskell_malformed :
    let literal := ascii "- (+(7 )"
    let l := Layout.ofLiteral .haskell literal
    Grammar.haskell.signs = .haskell ∧ literal.take l.bodyStart = ascii "- (+(" ∧
      literal.drop l.bodyEnd = ascii " )" ∧ l.sign = .minus ∧ .unpairedParen ∈ l.errors ∧
      .invalidSign ∈ l.errors := by
  intro literal l
  have hopening : literal.take l.bodyStart = ascii "- (+(" := by decide +kernel
  have hclosing : literal.drop l.bodyEnd = ascii " )" := by decide +kernel
  obtain ⟨-, -, -, -, -, -, -, hminus, -, hunpaired, hsign⟩ :=
    framing_of_haskell (g := .haskell) rfl literal
  rw [show Layout.ofLiteral .haskell literal = l from rfl, hopening, hclosing]
    at hminus hunpaired hsign
  exact ⟨rfl, hopening, hclosing, hminus.2 (by decide), hunpaired.2 (by decide),
    hsign.2 (.inl (by decide))⟩

end WhitespaceAsm.Numeral

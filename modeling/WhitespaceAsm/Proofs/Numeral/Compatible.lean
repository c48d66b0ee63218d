import WhitespaceAsm.Proofs.Numeral.Convert
import WhitespaceAsm.Proofs.Numeral.Signed

/-!
# Literals that stay as they are

Converting a numeral writes its framing, its markers and its digits anew. Under the grammar that it
has been read under all of them come out as they were. Under another grammar the text can come out
as it was too, and then both grammars cut it into the same parts.

* `Framing.text_of_ofSign`, `Framing.whole_ofLiteral`: the parts of a framing are the literal;
  **`Framing.plusMinus_of_plus`**: a plus without errors;
* `ReadsAs.convertedZeros_self`, `ReadsAs.literal_convert_self`, **`convert_self`**: converting a
  numeral to its own grammar changes nothing;
* `ReadsAs.framing_of_literal_convert`, `ReadsAs.layout_of_literal_convert`,
  **`parse_of_compatible`**: a literal that is compatible with another grammar is read under it as
  the same numeral; `compatible_letterFirst`: but a letter in front can be an error there.
-/

namespace WhitespaceAsm.Numeral

/-! ## Framings -/

namespace Framing

theorem text_of_ofSign (signs : SignStyle) (literal : Bytes) :
    let f := ofSign signs literal
    f.opening = f.sign.text ∧ f.closing = [] ∧ f.whole = literal := by
  unfold ofSign
  split
  · exact ⟨rfl, rfl, rfl⟩
  · next b rest =>
    split
    · next hminus =>
      subst hminus
      exact ⟨rfl, rfl, by simp [whole]⟩
    · split
      · next hplus =>
        subst hplus
        exact ⟨rfl, rfl, by simp [whole]⟩
      · exact ⟨rfl, rfl, by simp [whole]⟩

theorem whole_ofLiteral (signs : SignStyle) (literal : Bytes) :
    (ofLiteral signs literal).whole = literal := by
  cases signs with
  | haskell => exact opening_append_ofHaskell literal
  | minus | plusMinus => exact (text_of_ofSign _ literal).2.2

theorem sign_peel_ne_plus {f : Framing} (hsign : f.sign ≠ .plus) (h : f.peel.errors = ∅) :
    f.peel.sign ≠ .plus := by
  induction f using peel.induct with
  | case1 f hnone => rwa [peel_of_none hnone]
  | case2 f g hsome ih =>
    rw [peel_of_some hsome] at h ⊢
    obtain ⟨hnone, -, ⟨rest, -, rfl⟩ | ⟨rest, -, rfl⟩⟩ :=
      peelOne?_without_errors hsome (errors_eq_empty_of_peel h)
    · refine ih ?_ h
      rw [sign_peelMinus hnone]
      decide
    · exact ih hsign h

theorem plusMinus_of_plus {signs : SignStyle} {literal : Bytes}
    (hsign : (ofLiteral signs literal).sign = .plus)
    (herrors : (ofLiteral signs literal).errors = ∅) : signs = .plusMinus := by
  cases signs with
  | plusMinus => rfl
  | haskell =>
    have hstart : (trimEnd (trimStart { body := literal })).sign ≠ .plus := by
      change Sign.none ≠ .plus
      decide
    exact absurd hsign (sign_peel_ne_plus hstart herrors)
  | minus =>
    exfalso
    cases literal with
    | nil => cases hsign
    | cons b rest =>
      simp only [ofLiteral, ofSign] at hsign herrors
      split at hsign
      · cases hsign
      · next hminus =>
        split at hsign
        · next hplus =>
          rw [if_neg hminus, if_pos hplus] at herrors
          have hnone : flagIf (SignStyle.minus ≠ .plusMinus) Error.invalidSign = ∅ := herrors
          exact absurd hnone (FlagSet.singleton_ne_empty _)
        · cases hsign

end Framing

/-! ## The same grammar -/

theorem BaseStyle.nearest_of_mem {style : BaseStyle} {styles : FlagSet BaseStyle}
    (h : style ∈ styles) : style.nearest styles = style := if_pos (.inr h)

theorem sign_convert {n : Numeral} {target : Grammar} (source : Grammar)
    (h : n.sign = .plus → target.signs = .plusMinus) :
    (n.convert source target).sign = n.sign := by
  dsimp only [Numeral.convert]
  exact if_neg fun hdrop => hdrop.2.2 (h hdrop.2.1)

section Self

variable {n : Numeral} {g : Grammar} {opening digits closing : Bytes} {magnitude : Nat}
  (h : n.ReadsAs g opening digits closing magnitude)

include h

theorem ReadsAs.style_mem : n.style ∈ g.styles := by
  have herrors : (Layout.ofLiteral g n.literal).errors = ∅ := by rw [h.parts]; rfl
  have hstyle : (Layout.ofLiteral g n.literal).style = n.style := by rw [h.parts]; rfl
  rw [← hstyle]
  exact not_not.1 (not_of_flagIf_eq_empty (FlagSet.union_eq_empty herrors).2)

theorem ReadsAs.plusMinus_of_plus (hsign : n.sign = .plus) : g.signs = .plusMinus := by
  have hplus : (Framing.ofLiteral g.signs n.literal).sign = .plus := by
    rw [h.framing]
    exact hsign
  have herrors : (Framing.ofLiteral g.signs n.literal).errors = ∅ := by rw [h.framing]
  exact Framing.plusMinus_of_plus hplus herrors

theorem ReadsAs.literal_eq :
    n.literal = opening ++ (n.style.before ++ (digits ++ n.style.after) ++ closing) := by
  have hwhole := Framing.whole_ofLiteral g.signs n.literal
  rw [h.framing] at hwhole
  exact hwhole.symm

theorem ReadsAs.zeros_of_decimal (hstyle : n.style = .decimal)
    (hoctal : .octPrefixZero ∈ g.styles) :
    digits = [Ascii.zero] ∨ digits.head? ≠ some Ascii.zero := by
  have huses : g.usesPrefix := g.usesPrefix_iff.2 ⟨.octPrefixZero, hoctal, List.cons_ne_nil _ _⟩
  have hmarked := congrArg Layout.style h.parts
  simp only [Layout.ofLiteral, h.framing, layout, Marked.ofBody, huses, if_true, hoctal,
    decide_true, hstyle] at hmarked
  have hdigits : BaseStyle.decimal.before ++ (digits ++ BaseStyle.decimal.after) = digits :=
    List.append_nil digits
  rw [hdigits] at hmarked
  exact Marked.zeros_of_ofPrefix hmarked

theorem ReadsAs.convertedZeros_self
    (hzeros : (DigitRun.read n.style.radix digits).zeros = n.leadingZeros) :
    n.convertedZeros g n.style (digits.drop n.leadingZeros).isEmpty = n.leadingZeros := by
  unfold convertedZeros
  dsimp only
  split
  · next hdecimal =>
    have hstyle : n.style = .decimal := by
      obtain ⟨hradix, -⟩ := hdecimal
      revert hradix
      cases n.style <;> decide
    obtain rfl | hhead := h.zeros_of_decimal hstyle hdecimal.2
    · rw [← hzeros]
      rfl
    · have hnone : n.leadingZeros = 0 := by
        rw [← hzeros]
        cases digits with
        | nil => rfl
        | cons b rest =>
          have hb : b ≠ Ascii.zero := by simpa using hhead
          simp [DigitRun.read, hb]
      rw [hnone, if_neg (fun hbare => Nat.lt_irrefl 0 hbare.2)]
  · rw [if_neg fun hsuffix => hsuffix.2.1 hsuffix.1, if_neg fun hsuffix => hsuffix.1 hsuffix.2.1]

theorem ReadsAs.keepsDigits_self : n.keepsDigits g := by
  have hinvalid : .invalidDigit ∉ n.errors := by
    rw [h.errors, mem_flagIf_iff]
    exact fun hrange => absurd hrange.2 (by decide)
  refine decide_eq_true ⟨?_, h.separators, hinvalid⟩
  rw [BaseStyle.nearest_of_mem h.style_mem]

theorem ReadsAs.convertedDigits_self
    (hzeros : (DigitRun.read n.style.radix digits).zeros = n.leadingZeros) :
    n.convertedDigits g (digits.drop n.leadingZeros) = digits := by
  obtain ⟨hdigits, -⟩ := DigitRun.eq_zeros_append digits
  change (digits.takeWhile (· == Ascii.zero)).length = n.leadingZeros at hzeros
  rw [hzeros] at hdigits
  have hwritten := h.convertedZeros_self hzeros
  rw [convertedDigits, BaseStyle.nearest_of_mem h.style_mem, if_pos h.keepsDigits_self, hwritten]
  exact hdigits.symm

/-- **What is written** when a numeral is converted: its framing where both grammars have it, and
its sign elsewhere, around the converted digits and the markers of their style. -/
theorem ReadsAs.literal_convert (target : Grammar) :
    let out := n.convert g target
    let body := out.style.before
      ++ (n.convertedDigits target (digits.drop n.leadingZeros) ++ out.style.after)
    out.literal = if g.signs = .haskell ∧ target.signs = .haskell then opening ++ (body ++ closing)
      else out.sign.text ++ body := by
  by_cases hkeep : g.signs = .haskell ∧ target.signs = .haskell
  · simp [Numeral.convert, h.parts, hkeep, layout, convertedDigits, keepsDigits]
  · simp [Numeral.convert, h.parts, hkeep, layout, convertedDigits, keepsDigits]

theorem ReadsAs.leadingZeros_convert (target : Grammar) :
    (n.convert g target).leadingZeros = n.convertedZeros target (n.style.nearest target.styles)
      (digits.drop n.leadingZeros).isEmpty := by
  simp [Numeral.convert, h.parts, layout]

theorem ReadsAs.literal_convert_self
    (hzeros : (DigitRun.read n.style.radix digits).zeros = n.leadingZeros) :
    (n.convert g g).literal = n.literal := by
  have hstyle : (n.convert g g).style = n.style := BaseStyle.nearest_of_mem h.style_mem
  have hliteral := h.literal_convert g
  dsimp only at hliteral
  rw [hliteral, hstyle, h.convertedDigits_self hzeros, sign_convert g h.plusMinus_of_plus]
  by_cases hsigns : g.signs = .haskell
  · rw [if_pos ⟨hsigns, hsigns⟩, ← h.literal_eq]
  · have hframing := h.framing
    rw [Framing.ofLiteral_eq_ofSign hsigns] at hframing
    obtain ⟨hopening, hclosing, -⟩ := Framing.text_of_ofSign g.signs n.literal
    rw [hframing] at hopening hclosing
    rw [if_neg fun hboth => hsigns hboth.1, h.literal_eq]
    rw [show opening = n.sign.text from hopening, show closing = [] from hclosing, List.append_nil]

end Self

/-- **Converting a numeral to its own grammar changes nothing**, when only its range is wrong. -/
theorem convert_self (g : Grammar) (literal : Bytes)
    (h : ∀ e ∈ (parse g literal).errors, e = .range) :
    let n := parse g literal
    parse? g literal = .ok n ∧ n.convert g g = n ∧ n.compatible g g = true := by
  intro n
  obtain ⟨opening, digits, closing, magnitude, hreads, hzeros⟩ := exists_readsAs h
  have hmem : n.style ∈ g.styles := hreads.style_mem
  have hstyle : (n.convert g g).style = n.style := BaseStyle.nearest_of_mem hmem
  have hliteral : (n.convert g g).literal = n.literal := hreads.literal_convert_self hzeros
  have hsign : (n.convert g g).sign = n.sign := sign_convert g hreads.plusMinus_of_plus
  have hleading : (n.convert g g).leadingZeros = n.leadingZeros := by
    rw [hreads.leadingZeros_convert, BaseStyle.nearest_of_mem hmem]
    exact hreads.convertedZeros_self hzeros
  have hseparated : (n.convert g g).separated = n.separated := by
    change (n.keepsDigits g && n.separated) = n.separated
    rw [hreads.keepsDigits_self, Bool.true_and]
  have herrors : (n.convert g g).errors = n.errors :=
    (errors_convert hreads.errors g).trans hreads.errors.symm
  have hconvert : n.convert g g = n := by
    calc n.convert g g
        = { n.convert g g with
            literal := n.literal, sign := n.sign, style := n.style
            leadingZeros := n.leadingZeros, separated := n.separated, errors := n.errors } := by
          rw [← hliteral, ← hsign, ← hstyle, ← hleading, ← hseparated, ← herrors]
      _ = n := rfl
  refine ⟨parse?_eq_parse g literal, hconvert, ?_⟩
  rw [compatible, hconvert]
  simp [hmem]

/-- A grammar with suffixes beside the prefix `0`, in which values are below -57. -/
def mixedGrammar : Grammar where
  signs := .haskell
  styles := {.decimal, .octPrefixZero, .hexSuffixLower}
  separators := true
  max := some (-58)

/-- Nested parentheses, a space, a prefix `0` and separators on both sides of a zero stay. -/
theorem convert_self_framed :
    let n := parse mixedGrammar (ascii "((-0_07_1) )")
    (∀ e ∈ n.errors, e = .range) ∧ n.errors = {.range} ∧ n.value = -57 ∧ n.style = .octPrefixZero ∧
      n.convert mixedGrammar mixedGrammar = n ∧ n.compatible mixedGrammar mixedGrammar = true := by
  intro n
  have herrors : n.errors = {.range} := by decide +kernel
  have hrange : ∀ e ∈ n.errors, e = .range := by
    intro e he
    rw [herrors, FlagSet.mem_singleton] at he
    revert he
    cases e <;> decide
  obtain ⟨-, hconvert, hcompatible⟩ := convert_self mixedGrammar (ascii "((-0_07_1) )") hrange
  exact ⟨hrange, herrors, by decide +kernel, by decide +kernel, hconvert, hcompatible⟩

/-! ## Another grammar -/

theorem of_sign_convert {n : Numeral} {source target : Grammar}
    (hkeep : ¬ (source.signs = .haskell ∧ target.signs = .haskell))
    (h : (n.convert source target).sign = .plus) : n.sign = .plus ∧ target.signs = .plusMinus := by
  simp only [Numeral.convert, hkeep, decide_false, Bool.false_eq_true, not_false_eq_true,
    true_and] at h
  split at h
  · cases h
  · next hdrop => exact ⟨h, not_not.1 fun hsigns => hdrop ⟨h, hsigns⟩⟩

section Unchanged

variable {n : Numeral} {source target : Grammar} {opening digits closing : Bytes} {magnitude : Nat}
  (h : n.ReadsAs source opening digits closing magnitude)
  (hzeros : (DigitRun.read n.style.radix digits).zeros = n.leadingZeros)

include h hzeros

/-- **The same parts** are read as the same numeral under a grammar that takes its separators. Only
a letter in front and the range can be errors there. -/
theorem ReadsAs.ofParts_eq (hseparators : n.separated → target.separators) :
    let l := n.layout opening digits closing
    ofParts target n.literal l (DigitRun.read n.style.radix digits) magnitude
      = { n with
          errors := flagIf (startsWithHex target l) .startsWithHex
            ∪ flagIf (¬ target.inRange n.value) .range } := by
  intro l
  have hsep : ¬ (n.separated ∧ ¬ target.separators) := fun hnot => hnot.2 (hseparators hnot.1)
  have hvalue : (if l.sign = .minus then -(magnitude : Int) else magnitude) = n.value :=
    h.value.symm
  have herrors : l.errors = ∅ := rfl
  have hdigits : flagIf (l.digits = []) Error.noDigits = ∅ := flagIf_eq_empty h.spells.ne_nil
  simp only [ofParts, hvalue, hzeros, h.separated, h.spells.invalid, flagIf_eq_empty hsep, hdigits,
    herrors, flagIf_eq_empty Bool.false_ne_true, FlagSet.union_empty, FlagSet.empty_union]
  rfl

variable (hstyle : n.style ∈ target.styles)

include hstyle

theorem ReadsAs.spells_convertedDigits :
    let digits' := n.convertedDigits target (digits.drop n.leadingZeros)
    DigitRun.Spells n.style.radix digits' n.value.natAbs ∧
      (DigitRun.read n.style.radix digits').separated = (n.keepsDigits target && n.separated) ∧
      (n.style = .decimal → .octPrefixZero ∈ target.styles →
        ∀ b rest, digits' ≠ Ascii.zero :: b :: rest) := by
  intro digits'
  obtain ⟨hdigits, hs⟩ := DigitRun.eq_zeros_append digits
  change (digits.takeWhile (· == Ascii.zero)).length = n.leadingZeros at hzeros
  rw [hzeros] at hdigits hs
  have hspells := h.spells
  have hsep := h.separated
  rw [hdigits] at hspells hsep
  rw [DigitRun.read_zeros _ _ hs] at hsep
  rw [← Sign.natAbs_apply n.sign magnitude, ← h.value] at hspells
  obtain ⟨hspells', hsep', -⟩ := Numeral.spells_convertedDigits hs hspells target hsep
  have hoctal := @convertedDigits_ne_octal n _ hs hspells target
  rw [BaseStyle.nearest_of_mem hstyle] at hspells' hsep' hoctal
  exact ⟨hspells', hsep', hoctal⟩

variable (hliteral : (n.convert source target).literal = n.literal)

include hliteral

/-- **A literal that stays as it is** has the same framing under both grammars, and its digits are
the converted ones. -/
theorem ReadsAs.framing_of_literal_convert :
    Framing.ofLiteral target.signs n.literal = Framing.ofLiteral source.signs n.literal ∧
      n.convertedDigits target (digits.drop n.leadingZeros) = digits := by
  have hwritten := h.literal_convert target
  dsimp only at hwritten
  rw [hliteral, show (n.convert source target).style = n.style from
    BaseStyle.nearest_of_mem hstyle] at hwritten
  have hsolid := solid_body n.style (h.spells_convertedDigits hzeros hstyle).1
  generalize n.convertedDigits target (digits.drop n.leadingZeros) = digits' at hwritten hsolid ⊢
  by_cases hkeep : source.signs = .haskell ∧ target.signs = .haskell
  · rw [if_pos hkeep, h.literal_eq] at hwritten
    have hbody := List.append_cancel_right (List.append_cancel_left hwritten)
    refine ⟨by rw [hkeep.1, hkeep.2], ?_⟩
    exact (List.append_cancel_right (List.append_cancel_left hbody)).symm
  · -- a sign and a solid body are read in the same way under both grammars
    rw [if_neg hkeep] at hwritten
    have hsigns := @of_sign_convert n source target hkeep
    generalize (n.convert source target).sign = sign at hwritten hsigns
    have htarget : Framing.ofLiteral target.signs n.literal
        = { sign, opening := sign.text, body := n.style.before ++ (digits' ++ n.style.after) } := by
      rw [hwritten]
      exact Framing.ofLiteral_sign hsolid fun hplus => (hsigns hplus).2
    have hsource : Framing.ofLiteral source.signs n.literal
        = { sign, opening := sign.text, body := n.style.before ++ (digits' ++ n.style.after) } := by
      rw [hwritten]
      exact Framing.ofLiteral_sign hsolid fun hplus => h.plusMinus_of_plus (hsigns hplus).1
    have hbody := congrArg Framing.body (hsource.symm.trans h.framing)
    exact ⟨htarget.trans hsource.symm,
      List.append_cancel_right (List.append_cancel_left hbody)⟩

/-- **A literal that stays as it is** is cut into the same parts under both grammars. -/
theorem ReadsAs.layout_of_literal_convert (hmarkers : ¬ (target.usesPrefix ∧ target.usesSuffix)) :
    Layout.ofLiteral target n.literal = Layout.ofLiteral source n.literal ∧
      (n.separated → target.separators) := by
  obtain ⟨hframing, hdigits⟩ := h.framing_of_literal_convert hzeros hstyle hliteral
  obtain ⟨-, hsep, hoctal⟩ := h.spells_convertedDigits hzeros hstyle
  rw [hdigits] at hsep hoctal
  rw [h.separated] at hsep
  refine ⟨?_, fun hseparated => ?_⟩
  · rw [h.parts]
    refine layout_of_framing (hframing.trans h.framing) ?_ hstyle
    exact Marked.ofBody_written hstyle
      (fun hafter huses => hmarkers ⟨huses, target.usesSuffix_iff.2 ⟨_, hstyle, hafter⟩⟩)
      h.spells.ne_nil h.spells.readable hoctal
  · rw [hseparated, Bool.and_true] at hsep
    exact (of_decide_eq_true hsep.symm).2.1 hseparated

/-- **A literal that stays as it is** is read as the same numeral under both grammars. -/
theorem ReadsAs.parse?_of_literal_convert (hmarkers : ¬ (target.usesPrefix ∧ target.usesSuffix)) :
    parse? target n.literal = .ok { n with
      errors := flagIf (startsWithHex target (Layout.ofLiteral source n.literal)) .startsWithHex
        ∪ flagIf (¬ target.inRange n.value) .range } := by
  obtain ⟨hlayout, hseparators⟩ :=
    h.layout_of_literal_convert hzeros hstyle hliteral hmarkers
  rw [h.parts] at hlayout ⊢
  rw [parse?_of_value? hlayout rfl h.spells.value?]
  exact congrArg Except.ok (h.ofParts_eq hzeros hseparators)

end Unchanged

/-- **A literal that is compatible with another grammar** is read under it as the same numeral.
Besides a value out of range, only a letter in front can be an error there. -/
theorem parse_of_compatible (source target : Grammar) (literal : Bytes)
    (hmarkers : ¬ (target.usesPrefix ∧ target.usesSuffix))
    (herrors : (parse source literal).errors = ∅)
    (hcompatible : (parse source literal).compatible source target) :
    let n := parse source literal
    let l := Layout.ofLiteral source literal
    Layout.ofLiteral target literal = l ∧
      parse? target literal = .ok { n with
        errors := flagIf (startsWithHex target l) .startsWithHex
          ∪ flagIf (¬ target.inRange n.value) .range } := by
  intro n l
  have hrange : ∀ e ∈ n.errors, e = .range := fun e he =>
    absurd (herrors ▸ he) (FlagSet.not_mem_empty e)
  obtain ⟨opening, digits, closing, magnitude, hreads, hzeros⟩ := exists_readsAs hrange
  rw [compatible, Bool.and_eq_true, decide_eq_true_eq, beq_iff_eq] at hcompatible
  obtain ⟨hstyle, hliteral⟩ := hcompatible
  have hkept : n.literal = literal := literal_parse source literal
  have hlayout := (hreads.layout_of_literal_convert hzeros hstyle hliteral hmarkers).1
  have hparse := hreads.parse?_of_literal_convert hzeros hstyle hliteral hmarkers
  refine ⟨?_, ?_⟩
  · calc Layout.ofLiteral target literal
        = Layout.ofLiteral target n.literal := by rw [hkept]
      _ = Layout.ofLiteral source n.literal := hlayout
      _ = l := by rw [hkept]
  · calc parse? target literal
        = parse? target n.literal := by rw [hkept]
      _ = .ok { n with
            errors :=
              flagIf (startsWithHex target (Layout.ofLiteral source n.literal)) .startsWithHex
                ∪ flagIf (¬ target.inRange n.value) .range } := hparse
      _ = .ok { n with
            errors := flagIf (startsWithHex target l) .startsWithHex
              ∪ flagIf (¬ target.inRange n.value) .range } := by rw [hkept]

/-- A hexadecimal numeral with separators is one of a Haskell grammar too, where it is out of
range. -/
theorem parse_of_compatible_separated :
    let source : Grammar := { styles := {.decimal, .hexPrefixLower}, separators := true }
    let target : Grammar := { source with signs := .haskell, min := some (-30) }
    let n := parse source (ascii "-0x00_1F")
    ¬ (target.usesPrefix ∧ target.usesSuffix) ∧ n.errors = ∅ ∧ n.compatible source target ∧
      n.value = -31 ∧ n.leadingZeros = 2 ∧
      parse? target (ascii "-0x00_1F") = .ok { n with errors := {.range} } := by
  intro source target n
  have hmarkers : ¬ (target.usesPrefix ∧ target.usesSuffix) := by decide
  have herrors : n.errors = ∅ := by decide +kernel
  have hcompatible : n.compatible source target := by decide +kernel
  have hfirst : startsWithHex target (Layout.ofLiteral source (ascii "-0x00_1F")) = false := by
    decide +kernel
  have hrange : ¬ target.inRange n.value := by decide +kernel
  obtain ⟨-, hparse⟩ :=
    parse_of_compatible source target (ascii "-0x00_1F") hmarkers herrors hcompatible
  rw [hfirst, flagIf_eq_empty Bool.false_ne_true, FlagSet.empty_union,
    show flagIf (¬ target.inRange n.value) Error.range = {.range} from if_pos hrange] at hparse
  exact ⟨hmarkers, herrors, hcompatible, by decide +kernel, by decide +kernel, hparse⟩

/-- **A letter in front can be an error** where the literal stays as it is. -/
theorem compatible_letterFirst :
    let source : Grammar := { styles := {.decimal, .hexSuffixLower} }
    let n := parse source (ascii "ffh")
    let back := parse .palaiologos (ascii "ffh")
    ¬ (Grammar.palaiologos.usesPrefix ∧ Grammar.palaiologos.usesSuffix) ∧ n.errors = ∅ ∧
      n.compatible source .palaiologos = true ∧ back.errors = {.startsWithHex} ∧
      ¬ ∀ e ∈ back.errors, e = .range := by
  intro source n back
  have hback : back.errors = {.startsWithHex} := by decide +kernel
  refine ⟨by decide, by decide +kernel, by decide +kernel, hback, fun hall => ?_⟩
  cases hall .startsWithHex (hback ▸ FlagSet.mem_singleton_self _)

end WhitespaceAsm.Numeral

import WhitespaceAsm.Numeral.Convert
import WhitespaceAsm.Proofs.Numeral.Body

/-!
# Converted numerals are read back

A numeral without errors is written from an opening, digits between the markers of its style and a
closing. Converting it leads to a numeral that is written in the same way under the target grammar,
so that reading its literal gives it back.

* `convertedDigits`: the digits that are written; **`spells_convertedDigits`**: they spell the
  magnitude, `convertedDigits_ne_octal`, `startsWithHex_convertedDigits`: they are not taken for
  digits of another style or for a word;
* `ReadsAs.exists_framing`, **`ReadsAs.convert`**: what a converted numeral is written from;
  **`parse_convert`**: it is read back.
-/

namespace WhitespaceAsm.Numeral

/-! ## The parts of a numeral without errors -/

/-- The parts of a numeral between an opening and a closing. -/
def layout (n : Numeral) (opening digits closing : Bytes) : Layout where
  sign := n.sign
  style := n.style
  errors := ∅
  opening
  before := n.style.before
  digits
  after := n.style.after
  closing

/-- **The numeral is written without errors** from these parts, apart from a value out of range. -/
structure ReadsAs (n : Numeral) (g : Grammar) (opening digits closing : Bytes) (magnitude : Nat) :
    Prop where
  framing : Framing.ofLiteral g.signs n.literal =
    { sign := n.sign, opening, body := n.style.before ++ (digits ++ n.style.after), closing }
  parts : Layout.ofLiteral g n.literal = n.layout opening digits closing
  spells : DigitRun.Spells n.style.radix digits magnitude
  first : startsWithHex g (n.layout opening digits closing) = false
  separated : (DigitRun.read n.style.radix digits).separated = n.separated
  separators : n.separated → g.separators
  value : n.value = n.sign.apply magnitude
  errors : n.errors = flagIf (¬ g.inRange n.value) .range

theorem framing_of_layout {g : Grammar} {literal : Bytes} {l : Layout}
    (hl : Layout.ofLiteral g literal = l) (h : l.errors = ∅) :
    l = { l with errors := ∅, before := l.style.before, after := l.style.after } ∧
    Framing.ofLiteral g.signs literal =
      { sign := l.sign, opening := l.opening, body := l.style.before ++ (l.digits ++ l.style.after),
        closing := l.closing } := by
  subst hl
  obtain ⟨hframe, -⟩ := FlagSet.union_eq_empty h
  have hcuts := Marked.cuts_ofBody g (Framing.ofLiteral g.signs literal).body
  have hbody := hcuts.body
  rw [hcuts.before, hcuts.after] at hbody
  simp only [Layout.ofLiteral] at h ⊢
  rw [hbody, ← hcuts.before, ← hcuts.after, h, ← hframe]
  exact ⟨rfl, rfl⟩

theorem layout_of_framing {n : Numeral} {g : Grammar} {opening digits closing : Bytes}
    (hframing : Framing.ofLiteral g.signs n.literal =
      { sign := n.sign, opening, body := n.style.before ++ (digits ++ n.style.after), closing })
    (hbody : Marked.ofBody g (n.style.before ++ (digits ++ n.style.after))
      = ⟨n.style, n.style.before, digits, n.style.after⟩)
    (hstyle : n.style ∈ g.styles) :
    Layout.ofLiteral g n.literal = n.layout opening digits closing := by
  simp only [Layout.ofLiteral, hframing, hbody, flagIf_eq_empty (not_not.2 hstyle),
    FlagSet.empty_union]
  rfl

theorem of_errors_ofParts {g : Grammar} {literal : Bytes} {l : Layout} {run : DigitRun}
    {magnitude : Nat} (hl : Layout.ofLiteral g literal = l)
    (h : ∀ e ∈ (ofParts g literal l run magnitude).errors, e = .range) :
    l.errors = ∅ ∧ startsWithHex g l = false ∧ run.invalid = false ∧ l.digits ≠ [] ∧
      (run.separated → g.separators) := by
  have hlayout : l.errors.EmptyOr (· ≠ .range) := by
    rw [← hl]
    exact (Framing.errors_ofLiteral (by decide) (by decide) g.signs literal).union
      (.flagIf (by decide))
  have hnone := ((((hlayout.union (.flagIf (by decide))).union (.flagIf (by decide))).union
    (.flagIf (by decide))).union (.flagIf (by decide))).eq_empty
    fun e he => not_not.2 (h e (FlagSet.mem_union.2 (.inl he)))
  obtain ⟨hnone, hseparators⟩ := FlagSet.union_eq_empty hnone
  obtain ⟨hnone, hdigits⟩ := FlagSet.union_eq_empty hnone
  obtain ⟨hnone, hinvalid⟩ := FlagSet.union_eq_empty hnone
  obtain ⟨hnone, hfirst⟩ := FlagSet.union_eq_empty hnone
  refine ⟨hnone, ?_, ?_, not_of_flagIf_eq_empty hdigits, fun hsep => ?_⟩
  · simpa using not_of_flagIf_eq_empty hfirst
  · simpa using not_of_flagIf_eq_empty hinvalid
  · by_contra hnot
    exact not_of_flagIf_eq_empty hseparators ⟨hsep, hnot⟩

theorem errors_ofParts {g : Grammar} {l : Layout} {run : DigitRun} (literal : Bytes)
    (magnitude : Nat) (hl : l.errors = ∅) (hfirst : startsWithHex g l = false)
    (hinvalid : run.invalid = false) (hdigits : l.digits ≠ [])
    (hseparators : run.separated → g.separators) :
    (ofParts g literal l run magnitude).errors
      = flagIf (¬ g.inRange (l.sign.apply magnitude)) .range := by
  have hseparators' : ¬ (run.separated ∧ ¬ g.separators) :=
    fun hsep => hsep.2 (hseparators hsep.1)
  simp only [ofParts, hl, hfirst, hinvalid, flagIf_eq_empty hdigits, flagIf_eq_empty hseparators',
    flagIf_eq_empty Bool.false_ne_true, FlagSet.empty_union]
  rfl

/-- **Reading finds the parts** of a literal whose only error is its range. -/
theorem exists_readsAs {g : Grammar} {literal : Bytes}
    (h : ∀ e ∈ (parse g literal).errors, e = .range) :
    ∃ opening digits closing magnitude,
      (parse g literal).ReadsAs g opening digits closing magnitude ∧
      (DigitRun.read (parse g literal).style.radix digits).zeros
        = (parse g literal).leadingZeros := by
  obtain ⟨magnitude, hvalue, hparse⟩ := exists_parse?_eq g literal
  rw [parse_of_parse? hparse] at h ⊢
  obtain ⟨hlayout, hfirst, hinvalid, hdigits, hseparators⟩ := of_errors_ofParts rfl h
  obtain ⟨hparts, hframing⟩ := framing_of_layout rfl hlayout
  refine ⟨(Layout.ofLiteral g literal).opening, (Layout.ofLiteral g literal).digits,
    (Layout.ofLiteral g literal).closing, magnitude, ?_, rfl⟩
  exact {
    framing := hframing
    parts := hparts
    spells := ⟨hdigits, DigitRun.readable_of_read hinvalid, hvalue⟩
    first := hparts ▸ hfirst
    separated := rfl
    separators := hseparators
    value := rfl
    errors := errors_ofParts literal magnitude hlayout hfirst hinvalid hdigits hseparators }

section Reading

variable {n : Numeral} {g : Grammar} {opening digits closing : Bytes} {magnitude : Nat}
  (h : n.ReadsAs g opening digits closing magnitude)

include h

/-- **Reading depends on the parts alone.** -/
theorem ReadsAs.parse?_eq : parse? g n.literal
    = .ok { n with leadingZeros := (DigitRun.read n.style.radix digits).zeros } := by
  have herrors : (ofParts g n.literal (n.layout opening digits closing)
      (DigitRun.read n.style.radix digits) magnitude).errors
        = flagIf (¬ g.inRange (n.sign.apply magnitude)) .range :=
    errors_ofParts n.literal magnitude rfl h.first h.spells.invalid h.spells.ne_nil
      fun hsep => h.separators (h.separated.symm.trans hsep)
  rw [← h.value, ← h.errors] at herrors
  rw [parse?_of_value? h.parts rfl h.spells.value?]
  refine congrArg Except.ok ?_
  rw [← herrors, ← h.separated, h.value]
  rfl

end Reading

/-! ## Converted digits -/

/-- The digits are copied when the numeral is converted. -/
def keepsDigits (n : Numeral) (target : Grammar) : Bool :=
  n.style.radix = (n.style.nearest target.styles).radix ∧ (n.separated → target.separators) ∧
    .invalidDigit ∉ n.errors

/-- The digits that stand between the markers of the converted numeral, when `significant` are those
after the zeros of the numeral. -/
def convertedDigits (n : Numeral) (target : Grammar) (significant : Bytes) : Bytes :=
  let style := n.style.nearest target.styles
  let zeros := n.convertedZeros target style significant.isEmpty
  List.replicate zeros Ascii.zero ++
    if n.keepsDigits target then significant
    else if n.value.natAbs ≠ 0 ∨ zeros = 0 then style.radix.digits n.value.natAbs
    else []

theorem convertedZeros_ne_zero {n : Numeral} (target : Grammar) (style : BaseStyle)
    (hvalue : n.value.natAbs = 0) (hzeros : n.leadingZeros ≠ 0) :
    n.convertedZeros target style true ≠ 0 := by
  have hletter : topHexDigitIsLetter n.value.natAbs = false := by rw [hvalue]; rfl
  unfold convertedZeros
  dsimp only
  rw [hletter]
  split
  · rw [if_pos ⟨rfl, Nat.pos_of_ne_zero hzeros⟩]
    exact Nat.one_ne_zero
  · rw [if_neg fun h => Bool.false_ne_true h.2.2.2, if_neg fun h => Bool.false_ne_true h.2.2.2]
    exact hzeros

section Digits

variable {n : Numeral} {s : Bytes} (hs : s.head? ≠ some Ascii.zero)
  (hspells : DigitRun.Spells n.style.radix (List.replicate n.leadingZeros Ascii.zero ++ s)
    n.value.natAbs)

include hs hspells

theorem convertedZeros_ne_zero_of_nil (target : Grammar) (style : BaseStyle) (h : s = []) :
    n.convertedZeros target style s.isEmpty ≠ 0 := by
  subst h
  have hvalue := (hspells.eq_nil_iff hs rfl).1 rfl
  refine convertedZeros_ne_zero target style hvalue fun hzeros => hspells.ne_nil ?_
  rw [hzeros, List.append_nil]
  rfl

theorem spells_convertedDigits (target : Grammar)
    (hsep : (DigitRun.readSignificant n.style.radix s).separated = n.separated) :
    let radix := (n.style.nearest target.styles).radix
    let run := DigitRun.read radix (n.convertedDigits target s)
    DigitRun.Spells radix (n.convertedDigits target s) n.value.natAbs ∧
      run.separated = (n.keepsDigits target && n.separated) ∧
      (n.separated = false →
        run.zeros = n.convertedZeros target (n.style.nearest target.styles) s.isEmpty) := by
  have hnil := convertedZeros_ne_zero_of_nil hs hspells target (n.style.nearest target.styles)
  dsimp only [convertedDigits]
  generalize n.convertedZeros target (n.style.nearest target.styles) s.isEmpty = zeros at hnil ⊢
  by_cases hkeep : n.keepsDigits target
  · rw [if_pos hkeep, hkeep, ← (of_decide_eq_true hkeep).1, DigitRun.read_zeros _ _ hs]
    exact ⟨hspells.zeros hs hnil, hsep, fun _ => rfl⟩
  · rw [if_neg hkeep, Bool.eq_false_iff.2 hkeep, Bool.false_and]
    generalize (n.style.nearest target.styles).radix = r
    by_cases hvalue : n.value.natAbs = 0
    · have hempty : (([] : Bytes).head? ≠ some Ascii.zero) := by simp
      by_cases hzeros : zeros = 0
      · rw [if_pos (.inr hzeros), hzeros, hvalue, Radix.digits_zero]
        refine ⟨DigitRun.spells_replicate r Nat.one_ne_zero, ?_, fun hplain => ?_⟩
        · exact congrArg DigitRun.separated (DigitRun.read_zeros r 1 hempty)
        · rw [hplain] at hsep
          exact absurd hzeros (hnil ((hspells.eq_nil_iff hs hsep).2 hvalue))
      · rw [if_neg (by simp [hvalue, hzeros]), hvalue]
        have hread := DigitRun.read_zeros r zeros hempty
        rw [hread, List.append_nil]
        exact ⟨DigitRun.spells_replicate r hzeros, rfl, fun _ => rfl⟩
    · obtain ⟨hhead, hdigits⟩ := DigitRun.spells_digits r zeros hvalue
      rw [if_pos (.inl hvalue), DigitRun.read_zeros r zeros hhead,
        DigitRun.readSignificant_of_digits fun b hb => Radix.isSome_digit?_of_mem_digits hb]
      exact ⟨hdigits, rfl, fun _ => rfl⟩

theorem convertedDigits_ne_octal {target : Grammar}
    (hstyle : n.style.nearest target.styles = .decimal) (hoctal : .octPrefixZero ∈ target.styles)
    (b : UInt8) (rest : Bytes) : n.convertedDigits target s ≠ Ascii.zero :: b :: rest := by
  have hzeros : n.convertedZeros target (n.style.nearest target.styles) s.isEmpty
      = if s.isEmpty ∧ 0 < n.leadingZeros then 1 else 0 := by
    rw [convertedZeros, if_pos ⟨by rw [hstyle]; rfl, hoctal⟩]
  have hnil := convertedZeros_ne_zero_of_nil hs hspells target (n.style.nearest target.styles)
  dsimp only [convertedDigits]
  rw [hzeros] at hnil ⊢
  by_cases hbare : s.isEmpty ∧ 0 < n.leadingZeros
  · have hempty := List.isEmpty_iff.1 hbare.1
    subst hempty
    have hvalue := (hspells.eq_nil_iff hs rfl).1 rfl
    have hnone : ¬ ((0 : Nat) ≠ 0 ∨ 1 = 0) := by simp
    rw [if_pos hbare, hvalue, if_neg hnone, ite_self]
    exact fun h => List.cons_ne_nil b rest (List.cons.inj h).2.symm
  · rw [if_neg hbare, if_pos (Or.inr rfl), List.replicate_zero, List.nil_append]
    rintro h
    split at h
    · exact hs (congrArg List.head? h)
    · by_cases hvalue : n.value.natAbs = 0
      · rw [hvalue, Radix.digits_zero] at h
        exact List.cons_ne_nil b rest (List.cons.inj h).2.symm
      · exact (DigitRun.spells_digits _ 0 hvalue).1 (congrArg List.head? h)

theorem isHexSuffix_of_convertedDigits {target : Grammar}
    (hsep : (DigitRun.readSignificant n.style.radix s).separated = n.separated)
    (hhex : (n.style.nearest target.styles).isHexSuffix) {b : UInt8} {rest : Bytes} {d : Nat}
    (hdigits : n.convertedDigits target s = b :: rest)
    (hb : Radix.hexadecimal.digit? b = some d) (hd : 9 < d) :
    n.style.isHexSuffix ∧ n.leadingZeros = 0 ∧ topHexDigitIsLetter n.value.natAbs := by
  have hradix : (n.style.nearest target.styles).radix = .hexadecimal := by
    revert hhex
    cases n.style.nearest target.styles <;> simp [BaseStyle.isHexSuffix, BaseStyle.radix]
  have hconverted := (spells_convertedDigits hs hspells target hsep).1
  rw [hradix, hdigits] at hconverted
  have hletter := hconverted.topHexDigitIsLetter hb hd
  have hzeros : n.convertedZeros target (n.style.nearest target.styles) s.isEmpty = 0 := by
    by_contra hne
    obtain ⟨k, hk⟩ := Nat.exists_eq_succ_of_ne_zero hne
    dsimp only [convertedDigits] at hdigits
    rw [hk, List.replicate_succ, List.cons_append] at hdigits
    rw [← (List.cons.inj hdigits).1, Radix.digit?_zero] at hb
    cases hb
    omega
  simp only [convertedZeros, hradix, hhex, hletter] at hzeros
  by_cases hsuffix : n.style.isHexSuffix
  · exact ⟨hsuffix, by simpa [hsuffix] using hzeros, hletter⟩
  · by_cases hplain : n.leadingZeros = 0
    · simp [hsuffix, hplain] at hzeros
    · simp [hsuffix, hplain] at hzeros

theorem startsWithHex_convertedDigits {target : Grammar} {l : Layout}
    (hsep : (DigitRun.readSignificant n.style.radix s).separated = n.separated)
    (hfirst : target.decimalFirst → ¬ (n.style.isHexSuffix ∧ n.leadingZeros = 0 ∧
      topHexDigitIsLetter n.value.natAbs))
    (hstyle : l.style = n.style.nearest target.styles)
    (hdigits : l.digits = n.convertedDigits target s) : startsWithHex target l = false := by
  refine Bool.eq_false_iff.2 fun hletter => ?_
  rw [startsWithHex, Bool.and_eq_true, Bool.and_eq_true, hstyle, hdigits] at hletter
  obtain ⟨⟨hdecimal, hhex⟩, hhead⟩ := hletter
  split at hhead
  · next b hb =>
    obtain ⟨rest, hrest⟩ := List.head?_eq_some_iff.1 hb
    obtain ⟨d, hd, hlt⟩ := (Option.any_eq_true _ _).1 hhead
    exact hfirst hdecimal (isHexSuffix_of_convertedDigits hs hspells hsep hhex hrest hd
      (of_decide_eq_true hlt))
  · cases hhead

end Digits

/-! ## Converted numerals -/

theorem apply_sign_convert (n : Numeral) (source target : Grammar) (magnitude : Nat) :
    (n.convert source target).sign.apply magnitude = n.sign.apply magnitude := by
  dsimp only [convert]
  split
  · next hplus =>
    rw [hplus.2.1]
    rfl
  · rfl

theorem errors_convert {n : Numeral} {source : Grammar}
    (h : n.errors = flagIf (¬ source.inRange n.value) .range) (target : Grammar) :
    (n.convert source target).errors = flagIf (¬ target.inRange n.value) .range := by
  have hnone : n.errors ∩ {.invalidDigit, .noDigits} = ∅ := by
    rw [h, flagIf]
    split <;> rfl
  change n.errors ∩ {.invalidDigit, .noDigits} ∪ flagIf (¬ target.inRange n.value) .range = _
  rw [hnone, FlagSet.empty_union]

section Convert

variable {n : Numeral} {source target : Grammar} {opening digits closing : Bytes} {magnitude : Nat}
  (h : n.ReadsAs source opening digits closing magnitude)

include h

/-- **The framing that is written** is read back around any solid body. -/
theorem ReadsAs.exists_framing (target : Grammar) :
    ∃ opening' closing',
      (n.convert source target).literal = opening' ++
        ((n.convert source target).style.before ++
          (n.convertedDigits target (digits.drop n.leadingZeros) ++
            (n.convert source target).style.after) ++ closing') ∧
      ∀ body, Framing.Solid body → Framing.ofLiteral target.signs (opening' ++ (body ++ closing'))
        = { sign := (n.convert source target).sign, opening := opening', body
            closing := closing' } := by
  by_cases hkeep : source.signs = .haskell ∧ target.signs = .haskell
  · refine ⟨opening, closing, ?_, fun body hbody => ?_⟩
    · simp [convert, h.parts, hkeep, layout, convertedDigits, keepsDigits]
    · have hsign : (n.convert source target).sign = n.sign := by simp [convert, hkeep]
      have hframing := h.framing
      rw [hkeep.1, Framing.ofLiteral] at hframing
      have hsolid : Framing.Solid (Framing.ofHaskell n.literal).body := by
        rw [hframing]
        exact solid_body n.style h.spells
      have hreplace := Framing.ofHaskell_replace hsolid hbody
      rw [hframing] at hreplace
      rw [hsign, hkeep.2]
      exact hreplace
  · refine ⟨(n.convert source target).sign.text, [], ?_, fun body hbody => ?_⟩
    · simp [convert, h.parts, hkeep, layout, convertedDigits, keepsDigits]
    · rw [List.append_nil]
      refine Framing.ofLiteral_sign hbody fun hplus => ?_
      by_contra hsigns
      simp only [convert, hkeep, decide_false, Bool.false_eq_true, not_false_eq_true, true_and,
        hsigns, ne_eq, and_true] at hplus
      split at hplus
      · cases hplus
      · next hother => exact hother hplus

/-- **A converted numeral** is written without errors under the target grammar. -/
theorem ReadsAs.convert (hzeros : (DigitRun.read n.style.radix digits).zeros = n.leadingZeros)
    (htarget : ∃ s, s ∈ target.styles) (hmarkers : ¬ (target.usesPrefix ∧ target.usesSuffix))
    (hfirst : target.decimalFirst → ¬ (n.style.isHexSuffix ∧ n.leadingZeros = 0 ∧
      topHexDigitIsLetter n.value.natAbs)) :
    ∃ opening' digits' closing',
      (n.convert source target).ReadsAs target opening' digits' closing' magnitude ∧
      (n.separated = false →
        (DigitRun.read (n.convert source target).style.radix digits').zeros
          = (n.convert source target).leadingZeros) := by
  obtain ⟨hdigits, hs⟩ := DigitRun.eq_zeros_append digits
  change (digits.takeWhile (· == Ascii.zero)).length = n.leadingZeros at hzeros
  rw [hzeros] at hdigits hs
  have hvalue : n.value.natAbs = magnitude := by rw [h.value, Sign.natAbs_apply]
  have hspells := h.spells
  have hsep := h.separated
  obtain ⟨opening', closing', hliteral, hframing⟩ := h.exists_framing target
  have hleading : (n.convert source target).leadingZeros = n.convertedZeros target
      (n.style.nearest target.styles) (digits.drop n.leadingZeros).isEmpty := by
    simp [Numeral.convert, h.parts, layout]
  generalize digits.drop n.leadingZeros = s at hdigits hs hliteral hleading
  rw [hdigits] at hspells hsep
  rw [DigitRun.read_zeros _ _ hs] at hsep
  rw [← hvalue] at hspells
  obtain ⟨hspells', hsep', hzeros'⟩ := spells_convertedDigits hs hspells target hsep
  have hmem := n.style.nearest_mem htarget
  have hbody := Marked.ofBody_written hmem
    (fun hafter hstart => hmarkers ⟨hstart, target.usesSuffix_iff.2 ⟨_, hmem, hafter⟩⟩)
    hspells'.ne_nil hspells'.readable
    (fun hstyle hoctal b rest => convertedDigits_ne_octal hs hspells hstyle hoctal b rest)
  have hstyle : (n.convert source target).style = n.style.nearest target.styles := rfl
  have hframing' := hframing _ (solid_body (n.style.nearest target.styles) hspells')
  rw [← hstyle, ← hliteral] at hframing'
  refine ⟨opening', n.convertedDigits target s, closing', ?_, fun hplain => ?_⟩
  · exact {
      framing := hframing'
      parts := layout_of_framing hframing' hbody hmem
      spells := hvalue ▸ hspells'
      first := startsWithHex_convertedDigits hs hspells hsep hfirst rfl rfl
      separated := hsep'
      separators := fun hkept => by
        obtain ⟨hkeep, hseparated⟩ := Bool.and_eq_true_iff.1 hkept
        exact (of_decide_eq_true hkeep).2.1 hseparated
      value := h.value.trans (apply_sign_convert n source target magnitude).symm
      errors := errors_convert h.errors target }
  · rw [hleading]
    exact hzeros' hplain

end Convert

/-- **A converted numeral is read back** under the grammar that it has been converted to, with the
value of the first one and no error but a value out of range. -/
theorem parse_convert (source target : Grammar) (literal : Bytes)
    (htarget : ∃ s, s ∈ target.styles) (hmarkers : ¬ (target.usesPrefix ∧ target.usesSuffix))
    (herrors : ∀ e ∈ (parse source literal).errors, e = .range)
    (hfirst : target.decimalFirst → ¬ ((parse source literal).style.isHexSuffix ∧
      (parse source literal).leadingZeros = 0 ∧
      topHexDigitIsLetter (parse source literal).value.natAbs)) :
    let n := parse source literal
    let out := n.convert source target
    let back := parse target out.literal
    parse? target out.literal = .ok back ∧
      back.value = out.value ∧ back.sign = out.sign ∧ back.style = out.style ∧
      back.separated = out.separated ∧ back.errors = out.errors ∧
      out.errors = flagIf (¬ target.inRange out.value) .range ∧ out.value = n.value ∧
      (n.separated = false → back.leadingZeros = out.leadingZeros) := by
  intro n out back
  obtain ⟨opening, digits, closing, magnitude, hreads, hzeros⟩ := exists_readsAs herrors
  obtain ⟨opening', digits', closing', hout, hzeros'⟩ :=
    hreads.convert hzeros htarget hmarkers hfirst
  have hparse := hout.parse?_eq
  have hback : back = { out with leadingZeros := (DigitRun.read out.style.radix digits').zeros } :=
    parse_of_parse? hparse
  rw [hback]
  exact ⟨hparse, rfl, rfl, rfl, rfl, rfl, hout.errors, rfl, hzeros'⟩

/-- A hexadecimal numeral in parentheses gets a suffix, with a zero in front of its letters. -/
theorem parse_convert_haskell :
    let n := parse .haskell (ascii "(-0xFF)")
    let out := n.convert .haskell .palaiologos
    let back := parse .palaiologos out.literal
    out.literal = ascii "-0FFh" ∧ parse? .palaiologos out.literal = .ok back ∧
      back.value = -255 ∧ back.style = .hexSuffixLower ∧ back.leadingZeros = 1 ∧
      back.errors = ∅ := by
  intro n out back
  have herrors : n.errors = ∅ := by decide +kernel
  have hvalue : n.value = -255 := by decide +kernel
  have hseparated : n.separated = false := by decide +kernel
  have hleading : out.leadingZeros = 1 := by decide +kernel
  obtain ⟨hparse, hback, -, hstyle, -, herrors', hrange, hout, hzeros⟩ :=
    parse_convert .haskell .palaiologos (ascii "(-0xFF)") ⟨.decimal, by decide⟩ (by decide)
      (fun e he => absurd (herrors ▸ he) (FlagSet.not_mem_empty e)) (by decide +kernel)
  refine ⟨by decide +kernel, hparse, (hback.trans hout).trans hvalue,
    hstyle.trans (by decide +kernel), (hzeros hseparated).trans hleading,
    herrors'.trans (hrange.trans ?_)⟩
  exact flagIf_eq_empty (not_not.2 (hout ▸ hvalue ▸ by decide))

end WhitespaceAsm.Numeral

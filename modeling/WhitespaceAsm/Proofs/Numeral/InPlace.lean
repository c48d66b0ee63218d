import WhitespaceAsm.Proofs.Numeral.Layers
import WhitespaceAsm.Proofs.Numeral.Window

/-!
# Numerals in place

A literal can be cut, read and converted by offsets alone, with a check of the bounds at every byte
and every slice. No check fails, for any grammar and any literal, and the parts between the offsets
are those of the layout.

* `Offsets`, **`cut?`**: all offsets of a literal; `digitRun?`, `convert?`: what is read from it;
* `cut?_eq`, `digitRun?_eq`, `convert?_eq`, **`cut_in_bounds`**: no check fails.
-/

namespace WhitespaceAsm.Numeral

namespace Window

/-! ## Signs and markers -/

/-- The window of the body of a literal. -/
def ofLiteral? (signs : SignStyle) (literal : Bytes) : Option Window := do
  match signs with
  | .haskell =>
    let w ← trimStart? literal ⟨0, literal.length⟩
    peel? literal (← trimEnd? literal w)
  | .minus | .plusMinus =>
    if literal = [] then return ⟨0, 0⟩
    else
      let first ← literal[0]?
      if first = Ascii.minus ∨ first = Ascii.plus then return ⟨1, literal.length⟩
      else return ⟨0, literal.length⟩

/-- The style of a body and the window of its digits, when the base is marked in front of them. -/
def ofPrefix? (zero : Bool) (s : Bytes) (w : Window) : Option (BaseStyle × Window) := do
  if 2 ≤ (← w.last.psub w.first) then
    let first ← s[w.first]?
    if first = Ascii.zero then
      let second ← s[w.first + 1]?
      match Marked.prefixStyle? second with
      | some style => return (style, { w with first := w.first + 2 })
      | none =>
        if zero then return (.octPrefixZero, { w with first := w.first + 1 })
        else return (.decimal, w)
    else return (.decimal, w)
  else return (.decimal, w)

/-- The style of a body and the window of its digits, when the base is marked behind them. -/
def ofSuffix? (s : Bytes) (w : Window) : Option (BaseStyle × Window) := do
  if w.first < w.last then
    let beforeLast ← w.last.ppred
    let last ← s[beforeLast]?
    match Marked.suffixStyle? last with
    | some style => return (style, { w with last := beforeLast })
    | none => return (.decimal, w)
  else return (.decimal, w)

/-- **The style of a body and the window of its digits.** -/
def ofBody? (g : Grammar) (s : Bytes) (w : Window) : Option (BaseStyle × Window) :=
  if g.usesPrefix then ofPrefix? (.octPrefixZero ∈ g.styles) s w
  else if g.usesSuffix then ofSuffix? s w
  else some (.decimal, w)

theorem ofLiteral?_eq (signs : SignStyle) (literal : Bytes) :
    ofLiteral? signs literal = some (ofFraming (Framing.ofLiteral signs literal)) := by
  cases signs with
  | haskell =>
    have hstart := trimStart?_ofFraming { body := literal }
    have hend := trimEnd?_ofFraming (Framing.trimStart { body := literal })
    have hpeel := peel?_ofFraming (Framing.trimEnd (Framing.trimStart { body := literal }))
    have hwhole : Framing.whole { body := literal } = literal := List.append_nil literal
    have hwindow : ofFraming { body := literal } = ⟨0, literal.length⟩ := by
      rw [ofFraming, behind, List.length_nil, Nat.zero_add]
    rw [hwhole, hwindow] at hstart
    rw [Framing.whole_trimStart, hwhole] at hend
    rw [Framing.whole_trimEnd, Framing.whole_trimStart, hwhole] at hpeel
    simp only [ofLiteral?, bind, hstart, Option.bind_some, hend]
    exact hpeel
  | minus | plusMinus =>
    cases literal with
    | nil => rfl
    | cons b rest =>
      by_cases hminus : b = Ascii.minus
      · simp [ofLiteral?, Framing.ofLiteral, Framing.ofSign, hminus, ofFraming, behind,
          Nat.add_comm]
      · by_cases hplus : b = Ascii.plus
        · simp [ofLiteral?, Framing.ofLiteral, Framing.ofSign, hplus, ofFraming, behind,
            Nat.add_comm, Ascii.minus, Ascii.plus]
        · simp [ofLiteral?, Framing.ofLiteral, Framing.ofSign, hminus, hplus, ofFraming, behind]

/-- The style of a cut body and the window of its digits. -/
def ofMarked (opening : Bytes) (m : Marked) : BaseStyle × Window :=
  (m.style, behind (opening ++ m.before) m.digits)

theorem ofPrefix?_behind (zero : Bool) (x body y : Bytes) :
    ofPrefix? zero (x ++ (body ++ y)) (behind x body)
      = some (ofMarked x (Marked.ofPrefix zero body)) := by
  have hlength : (behind x body).last.psub (behind x body).first = some body.length :=
    Nat.psub_eq_some.2 (Nat.add_comm _ _)
  have hunmarked : behind x body = behind (x ++ []) body := by rw [List.append_nil]
  simp only [ofPrefix?, bind, hlength, Option.bind_some]
  match body with
  | [] | [_] =>
    rw [if_neg (by simp)]
    exact congrArg (fun w => some (BaseStyle.decimal, w)) hunmarked
  | b :: c :: rest =>
    have htwo : 2 ≤ (b :: c :: rest).length := Nat.le_add_left 2 _
    have hsecond : (x ++ (b :: c :: rest ++ y))[(behind x (b :: c :: rest)).first + 1]?
        = some c := by
      have hcut := getElem?_append_cons (x ++ [b]) (rest ++ y) c
      rwa [List.length_append, List.append_assoc] at hcut
    rw [if_pos htwo, getElem?_behind, Option.bind_some, hsecond, Option.bind_some, behind_cons,
      behind_drop x htwo, Marked.ofPrefix]
    split
    · cases Marked.prefixStyle? c with
      | some style => rfl
      | none =>
        cases zero with
        | true => rfl
        | false => exact congrArg (fun w => some (BaseStyle.decimal, w)) hunmarked
    · exact congrArg (fun w => some (BaseStyle.decimal, w)) hunmarked

theorem ofSuffix?_ofFraming (f : Framing) :
    ofSuffix? f.whole (ofFraming f) = some (ofMarked f.opening (Marked.ofSuffix f.body)) := by
  have hunmarked : behind f.opening f.body = behind (f.opening ++ []) f.body := by
    rw [List.append_nil]
  by_cases hne : f.body = []
  · rw [ofSuffix?, ofFraming, hne, if_neg (not_behind_nil_lt f.opening), ← hne, hunmarked,
      Marked.ofSuffix, hne]
    rfl
  · obtain ⟨-, last, beforeLast, -, hgetLast, -, hbefore, hlast⟩ := ends_ofFraming hne
    have hlt : (ofFraming f).first < (ofFraming f).last := behind_lt f.opening hne
    rw [ofSuffix?, if_pos hlt, hbefore]
    simp only [bind, Option.bind_some, hlast]
    rw [Marked.ofSuffix, hgetLast]
    dsimp only
    cases Marked.suffixStyle? last with
    | some style =>
      have hwindow : (⟨(ofFraming f).first, beforeLast⟩ : Window)
          = behind (f.opening ++ []) f.body.dropLast := by
        rw [List.append_nil]
        exact behind_dropLast f.opening hne hbefore
      exact congrArg (fun w => some (style, w)) hwindow
    | none => exact congrArg (fun w => some (BaseStyle.decimal, w)) hunmarked

theorem ofBody?_ofFraming (g : Grammar) (f : Framing) :
    ofBody? g f.whole (ofFraming f) = some (ofMarked f.opening (Marked.ofBody g f.body)) := by
  unfold ofBody? Marked.ofBody
  split
  · exact ofPrefix?_behind _ f.opening f.body f.closing
  · split
    · exact ofSuffix?_ofFraming f
    · rw [ofMarked, List.append_nil]
      rfl

/-! ## Digits -/

/-- Passes the zeros at the start. -/
def zeros? (s : Bytes) (w : Window) : Option Window :=
  if w.first < w.last then
    match s[w.first]? with
    | none => none
    | some b => if b = Ascii.zero then zeros? s { w with first := w.first + 1 } else some w
  else some w
termination_by w.last - w.first

/-- Reads digits and separators up to the first byte that is neither. -/
def readSignificant? (r : Radix) (s : Bytes) (w : Window) : Option DigitRun :=
  if w.first < w.last then
    match s[w.first]? with
    | none => none
    | some b =>
      if b = Ascii.underscore then
        (readSignificant? r s { w with first := w.first + 1 }).map
          fun run => { run with separated := true }
      else if (r.digit? b).isSome then
        (readSignificant? r s { w with first := w.first + 1 }).map
          fun run => { run with significant := b :: run.significant }
      else some { invalid := true }
  else some {}
termination_by w.last - w.first

/-- **Reads the digits of a numeral.** -/
def read? (r : Radix) (s : Bytes) (w : Window) : Option DigitRun := do
  let rest ← zeros? s w
  let run ← readSignificant? r s rest
  return { run with zeros := ← rest.first.psub w.first }

theorem zeros?_behind (x digits y : Bytes) : zeros? (x ++ (digits ++ y)) (behind x digits)
    = some (behind (x ++ digits.takeWhile (· == Ascii.zero))
        (digits.dropWhile (· == Ascii.zero))) := by
  induction digits generalizing x with
  | nil =>
    rw [zeros?, if_neg (not_behind_nil_lt x), List.takeWhile_nil, List.dropWhile_nil,
      List.append_nil]
  | cons b rest ih =>
    rw [zeros?, if_pos (behind_lt x (List.cons_ne_nil b rest)), getElem?_behind, behind_cons,
      append_cons_append, ih]
    dsimp only
    split
    · next hb => simp [hb]
    · next hb => simp [hb]

theorem readSignificant?_behind (r : Radix) (x digits y : Bytes) :
    readSignificant? r (x ++ (digits ++ y)) (behind x digits)
      = some (DigitRun.readSignificant r digits) := by
  induction digits generalizing x with
  | nil =>
    rw [readSignificant?, if_neg (not_behind_nil_lt x)]
    rfl
  | cons b rest ih =>
    rw [readSignificant?, if_pos (behind_lt x (List.cons_ne_nil b rest)), getElem?_behind,
      behind_cons, append_cons_append, ih, DigitRun.readSignificant]
    dsimp only
    split_ifs <;> rfl

theorem read?_behind (r : Radix) (x digits y : Bytes) :
    read? r (x ++ (digits ++ y)) (behind x digits) = some (DigitRun.read r digits) := by
  have hsplit : digits.takeWhile (· == Ascii.zero) ++ digits.dropWhile (· == Ascii.zero) = digits :=
    List.takeWhile_append_dropWhile
  have hwhole : x ++ (digits ++ y) = x ++ digits.takeWhile (· == Ascii.zero) ++
      (digits.dropWhile (· == Ascii.zero) ++ y) := by
    rw [List.append_assoc, ← List.append_assoc (digits.takeWhile _), hsplit]
  have hdrop : digits.drop (digits.takeWhile (· == Ascii.zero)).length
      = digits.dropWhile (· == Ascii.zero) := by
    conv_lhs => arg 2; rw [← hsplit]
    exact List.drop_left
  have hzeros : (behind (x ++ digits.takeWhile (· == Ascii.zero))
      (digits.dropWhile (· == Ascii.zero))).first.psub (behind x digits).first
        = some (digits.takeWhile (· == Ascii.zero)).length :=
    Nat.psub_eq_some.2 (by rw [behind, behind, List.length_append, Nat.add_comm])
  simp only [read?, bind, zeros?_behind, Option.bind_some]
  rw [hwhole, readSignificant?_behind, Option.bind_some, hzeros, Option.bind_some, DigitRun.read,
    hdrop]
  rfl

end Window

/-! ## Literals and numerals -/

/-- **The offsets at which a literal is cut**, with the style of its markers. -/
structure Offsets where
  style : BaseStyle
  body : Window
  digits : Window
deriving DecidableEq, Repr

/-- The offsets of a layout. -/
def Offsets.ofLayout (l : Layout) : Offsets where
  style := l.style
  body := ⟨l.bodyStart, l.bodyEnd⟩
  digits := ⟨l.digitsStart, l.digitsEnd⟩

/-- **Cuts a literal** under a grammar. -/
def cut? (g : Grammar) (literal : Bytes) : Option Offsets := do
  let body ← Window.ofLiteral? g.signs literal
  let (style, digits) ← Window.ofBody? g literal body
  return { style, body, digits }

/-- Reads the digits of a literal under a grammar. -/
def digitRun? (g : Grammar) (literal : Bytes) : Option DigitRun := do
  let offsets ← cut? g literal
  offsets.digits.read? offsets.style.radix literal

/-- **Writes a numeral under the grammar `target`** with the parts of its literal. -/
def convert? (n : Numeral) (source target : Grammar) : Option Numeral := do
  let offsets ← cut? source n.literal
  let keepFraming : Bool := source.signs = .haskell ∧ target.signs = .haskell
  let sign :=
    if ¬keepFraming ∧ n.sign = .plus ∧ target.signs ≠ .plusMinus then .none else n.sign
  let opening ← if keepFraming then slice? n.literal 0 offsets.body.first else some sign.text
  let digits ← slice? n.literal offsets.digits.first offsets.digits.last
  let significant ← slice? digits (min n.leadingZeros digits.length) digits.length
  let closing ←
    if keepFraming then slice? n.literal offsets.body.last n.literal.length else some []
  let style := n.style.nearest target.styles
  return {
    literal := opening ++ style.before ++ n.convertedDigits target significant ++ style.after
      ++ closing
    value := n.value
    sign
    style
    leadingZeros := n.convertedZeros target style significant.isEmpty
    separated := n.keepsDigits target && n.separated
    errors := (n.errors ∩ {.invalidDigit, .noDigits}) ∪ flagIf (¬target.inRange n.value) .range }

theorem Layout.whole_ofLiteral (g : Grammar) (literal : Bytes) :
    let l := Layout.ofLiteral g literal
    l.opening ++ (l.before ++ (l.digits ++ (l.after ++ l.closing))) = literal := by
  intro l
  have hbody : l.before ++ (l.digits ++ l.after) = (Framing.ofLiteral g.signs literal).body :=
    (Marked.cuts_ofBody g (Framing.ofLiteral g.signs literal).body).body
  rw [← List.append_assoc l.digits, ← List.append_assoc l.before, hbody]
  exact Framing.whole_ofLiteral g.signs literal

/-- **The offsets of a layout are in order** and within the literal. -/
theorem Layout.ordered (g : Grammar) (literal : Bytes) :
    let l := Layout.ofLiteral g literal
    l.bodyStart ≤ l.digitsStart ∧ l.digitsStart ≤ l.digitsEnd ∧ l.digitsEnd ≤ l.bodyEnd ∧
      l.bodyEnd ≤ literal.length := by
  intro l
  exact ⟨Nat.le_add_right _ _, Nat.le_add_right _ _, Nat.le_add_right _ _,
    (slices_ofLiteral g literal).1.2⟩

/-- **The parts of a layout** are found between its offsets. -/
theorem Layout.slice?_ofLiteral (g : Grammar) (literal : Bytes) :
    let l := Layout.ofLiteral g literal
    slice? literal 0 l.bodyStart = some l.opening ∧
      slice? literal l.digitsStart l.digitsEnd = some l.digits ∧
      slice? literal l.bodyEnd literal.length = some l.closing := by
  intro l
  obtain ⟨⟨hle, hend⟩, hopening, -, hclosing⟩ := slices_ofLiteral g literal
  refine ⟨?_, ?_, ?_⟩
  · rw [slice?, if_pos ⟨Nat.zero_le _, hle.trans hend⟩, List.drop_zero, hopening]
    rfl
  · have hdigits := slice?_append (l.opening ++ l.before) l.digits (l.after ++ l.closing)
    rwa [List.append_assoc, Layout.whole_ofLiteral g literal, List.length_append] at hdigits
  · rw [slice?, if_pos ⟨hend, Nat.le_refl _⟩, List.take_length, hclosing]
    rfl

/-- **The offsets that are found** are those of the layout. -/
theorem cut?_eq (g : Grammar) (literal : Bytes) :
    cut? g literal = some (.ofLayout (Layout.ofLiteral g literal)) := by
  have hwhole := Framing.whole_ofLiteral g.signs literal
  have hbody := Window.ofBody?_ofFraming g (Framing.ofLiteral g.signs literal)
  rw [hwhole] at hbody
  simp only [cut?, bind, Window.ofLiteral?_eq, Option.bind_some, hbody]
  refine congrArg some ?_
  rw [Offsets.ofLayout, Offsets.mk.injEq]
  refine ⟨rfl, ?_, ?_⟩
  · have hcuts := (Marked.cuts_ofBody g (Framing.ofLiteral g.signs literal).body).body
    rw [Window.ofFraming, Window.behind, ← congrArg List.length hcuts, List.length_append,
      List.length_append, ← Nat.add_assoc, ← Nat.add_assoc]
    rfl
  · rw [Window.ofMarked, Window.behind, List.length_append]
    rfl

theorem digitRun?_eq (g : Grammar) (literal : Bytes) :
    digitRun? g literal = some (digitRun g literal) := by
  let l := Layout.ofLiteral g literal
  have hread := Window.read?_behind l.style.radix (l.opening ++ l.before) l.digits
    (l.after ++ l.closing)
  rw [List.append_assoc, Layout.whole_ofLiteral g literal, Window.behind, List.length_append]
    at hread
  simp only [digitRun?, cut?_eq, bind, Option.bind_some]
  exact hread

/-- **Every numeral is converted** in place, also one that has not been read from its literal. -/
theorem convert?_eq (n : Numeral) (source target : Grammar) :
    convert? n source target = some (n.convert source target) := by
  obtain ⟨hopening, hdigits, hclosing⟩ := Layout.slice?_ofLiteral source n.literal
  have hsignificant : ∀ digits : Bytes, slice? digits (min n.leadingZeros digits.length)
      digits.length = some (digits.drop n.leadingZeros) := by
    intro digits
    rw [slice?, if_pos ⟨Nat.min_le_right _ _, Nat.le_refl _⟩, List.take_length]
    obtain hle | hle := Nat.le_total n.leadingZeros digits.length
    · rw [Nat.min_eq_left hle]
    · rw [Nat.min_eq_right hle, List.drop_length, List.drop_of_length_le hle]
  simp only [convert?, cut?_eq, bind, Option.bind_some, Offsets.ofLayout]
  rw [hopening, hclosing, hdigits]
  simp only [Option.bind_some, hsignificant, convertedDigits, ← List.append_assoc]
  unfold convert
  cases decide (source.signs = .haskell ∧ target.signs = .haskell) <;> rfl

/-- **No check fails**, for any grammar and literal: the offsets at which the literal is cut are in
order and within it, and every literal is a numeral that can be converted to every grammar. -/
theorem cut_in_bounds (g : Grammar) (literal : Bytes) :
    let l := Layout.ofLiteral g literal
    cut? g literal = some (.ofLayout l) ∧
      (l.bodyStart ≤ l.digitsStart ∧ l.digitsStart ≤ l.digitsEnd ∧ l.digitsEnd ≤ l.bodyEnd ∧
        l.bodyEnd ≤ literal.length) ∧
      digitRun? g literal = some (digitRun g literal) ∧
      ∃ n, parse? g literal = .ok n ∧ n.literal = literal ∧
        ∀ target, convert? n g target = some (n.convert g target) := by
  intro l
  exact ⟨cut?_eq g literal, Layout.ordered g literal, digitRun?_eq g literal, parse g literal,
    parse?_eq_parse g literal, literal_parse g literal, convert?_eq _ g⟩

/-- A layer too many at the end, and a prefix without digits. -/
example : Offsets.ofLayout (Layout.ofLiteral .haskell (ascii "(-0x))"))
    = ⟨.hexPrefixLower, ⟨2, 4⟩, ⟨4, 4⟩⟩ := by
  decide +kernel

end WhitespaceAsm.Numeral

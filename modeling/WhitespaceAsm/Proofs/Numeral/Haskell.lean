import WhitespaceAsm.Proofs.Numeral.Body
import WhitespaceAsm.Proofs.Utf8.Trim

/-!
# The grammar of Haskell numerals

A Haskell numeral is an unsigned one, alone or behind one minus, in any number of parentheses with
spaces between the parts. Peeling leaves no errors exactly around such a numeral: a sign is an error
in front of another layer, and a parenthesis needs its partner.

* `spaces`, `Blank`, `Unsigned`, `Enclosed`, **`Literal`**: the grammar;
* `enclosed_of_peel`, `Enclosed.peel`, **`literal_iff`**: all layers;
* **`parse?_haskell`**: the literals that are read without errors.
-/

namespace WhitespaceAsm.Numeral

namespace Haskell

/-! ## The grammar -/

/-- The spaces, as code points: the ASCII blanks and the spaces of Unicode. -/
def spaces : List Nat :=
  [0x09, 0x0A, 0x0B, 0x0C, 0x0D, 0x20, 0xA0, 0x1680, 0x2000, 0x2001, 0x2002, 0x2003, 0x2004, 0x2005,
    0x2006, 0x2007, 0x2008, 0x2009, 0x200A, 0x202F, 0x205F, 0x3000]

/-- A text of spaces, or none. -/
def Blank (w : Bytes) : Prop :=
  ∃ cs : List Nat, (∀ c ∈ cs, c ∈ spaces) ∧ w = cs.flatMap Utf8.encode

/-- **An unsigned numeral**, with its value. -/
inductive Unsigned : Bytes → Nat → Prop
  | decimal {digits : Bytes} {n : Nat} (h : Denotes .decimal digits n) : Unsigned digits n
  | octal {marker digits : Bytes} {n : Nat} (hmarker : marker = ascii "0o" ∨ marker = ascii "0O")
      (h : Denotes .octal digits n) : Unsigned (marker ++ digits) n
  | hexadecimal {marker digits : Bytes} {n : Nat}
      (hmarker : marker = ascii "0x" ∨ marker = ascii "0X") (h : Denotes .hexadecimal digits n) :
    Unsigned (marker ++ digits) n

/-- **A numeral without spaces around it**, with its value: an unsigned one, alone or behind a
minus, or a numeral in parentheses. -/
inductive Enclosed : Bytes → Int → Prop
  | unsigned {body : Bytes} {n : Nat} (h : Unsigned body n) : Enclosed body n
  | minus {w body : Bytes} {n : Nat} (hw : Blank w) (h : Unsigned body n) :
    Enclosed (Ascii.minus :: (w ++ body)) (-n)
  | parens {l body r : Bytes} {value : Int} (hl : Blank l) (h : Enclosed body value)
      (hr : Blank r) :
    Enclosed (Ascii.leftParen :: (l ++ (body ++ r) ++ [Ascii.rightParen])) value

/-- **A numeral**, with its value. -/
def Literal (literal : Bytes) (value : Int) : Prop :=
  ∃ l body r, Blank l ∧ Enclosed body value ∧ Blank r ∧ literal = l ++ (body ++ r)

/-! ## Bodies and spaces -/

theorem marker_of_mem {t : BaseStyle} (ht : t ∈ Grammar.haskell.styles) (hbefore : t.before ≠ []) :
    ((t.before = ascii "0o" ∨ t.before = ascii "0O") ∧ t.radix = .octal) ∨
      ((t.before = ascii "0x" ∨ t.before = ascii "0X") ∧ t.radix = .hexadecimal) := by
  revert ht hbefore
  cases t <;> decide

theorem body_haskell_iff {body : Bytes} {n : Nat} : Body .haskell body n ↔ Unsigned body n := by
  constructor
  · intro h
    cases h with
    | @withPrefix t digits n ht hbefore h =>
      obtain ⟨hmarker, hradix⟩ | ⟨hmarker, hradix⟩ := marker_of_mem ht hbefore
      · exact .octal hmarker (hradix ▸ h)
      · exact .hexadecimal hmarker (hradix ▸ h)
    | withSuffix _ _ hunmarked =>
      exact absurd (hunmarked .octPrefixLower (by decide)) (by decide)
    | plain _ _ h => exact .decimal h
  · intro h
    cases h with
    | decimal h => exact .plain (by decide) (fun h => absurd h (by decide)) h
    | octal hmarker h =>
      obtain rfl | rfl := hmarker
      · exact .withPrefix (t := .octPrefixLower) (by decide) (by decide) h
      · exact .withPrefix (t := .octPrefixUpper) (by decide) (by decide) h
    | hexadecimal hmarker h =>
      obtain rfl | rfl := hmarker
      · exact .withPrefix (t := .hexPrefixLower) (by decide) (by decide) h
      · exact .withPrefix (t := .hexPrefixUpper) (by decide) (by decide) h

theorem Unsigned.solid {body : Bytes} {n : Nat} (h : Unsigned body n) : Framing.Solid body :=
  (body_haskell_iff.2 h).solid

theorem isHaskellSpace_iff {c : Nat} : isHaskellSpace c ↔ c ∈ spaces := by
  simp only [isHaskellSpace, spaces, Bool.or_eq_true, Bool.and_eq_true, decide_eq_true_eq,
    beq_iff_eq, List.mem_cons, List.not_mem_nil, or_false]
  omega

theorem blank_iff_run {w : Bytes} : Blank w ↔ Utf8.Run isHaskellSpace w := by
  have hscalar : ∀ c ∈ spaces, c.isValidChar := by decide
  constructor
  · rintro ⟨cs, hcs, rfl⟩
    exact ⟨cs, fun c hc => ⟨hscalar c (hcs c hc), isHaskellSpace_iff.2 (hcs c hc)⟩, rfl⟩
  · rintro ⟨cs, hcs, rfl⟩
    exact ⟨cs, fun c hc => isHaskellSpace_iff.1 (hcs c hc).2, rfl⟩

theorem exists_blank_trimStart {f : Framing} {s : Bytes} (hf : f.body = s) :
    ∃ l, Blank l ∧ s = l ++ f.trimStart.body := by
  subst hf
  exact ⟨_, blank_iff_run.2 (Utf8.run_takeChars _ _),
    List.prefix_append_drop (Utf8.takeChars_isPrefix isHaskellSpace f.body)⟩

theorem exists_blank_trim {f : Framing} {s : Bytes} (hf : f.body = s) :
    ∃ l r, Blank l ∧ Blank r ∧ s = l ++ (f.trimStart.trimEnd.body ++ r) := by
  obtain ⟨l, hl, hstart⟩ := exists_blank_trimStart hf
  obtain ⟨r, hr, hend⟩ := Utf8.exists_run_trimEnd isHaskellSpace f.trimStart.body
  exact ⟨l, r, hl, blank_iff_run.2 hr, hstart.trans (congrArg (l ++ ·) hend)⟩

theorem body_trimStart_of_blank {f : Framing} {l s : Bytes} (hl : Blank l)
    (hs : Utf8.takeChars isHaskellSpace s = []) (hf : f.body = l ++ s) : f.trimStart.body = s := by
  rw [Framing.trimStart, hf, (blank_iff_run.1 hl).takeChars_append, hs, List.append_nil]
  exact List.drop_left

theorem takeChars_cons {b : UInt8} (hb : b < 0x80) (hspace : isHaskellSpace b.toNat = false)
    (s : Bytes) : Utf8.takeChars isHaskellSpace (b :: s) = [] := by
  rw [← List.nil_append (b :: s), Utf8.takeChars_append_cons hb hspace, Utf8.takeChars,
    Utf8.takeUnits]

theorem trimEnd_nil : Utf8.trimEnd isHaskellSpace [] = [] :=
  List.prefix_nil.1 (Utf8.trimEnd_isPrefix _ _)

namespace Enclosed

variable {s : Bytes} {value : Int} (h : Enclosed s value)

include h

theorem takeChars_append (t : Bytes) : Utf8.takeChars isHaskellSpace (s ++ t) = [] := by
  cases h with
  | unsigned h =>
    rw [← List.nil_append (s ++ t), h.solid.takeChars_append, Utf8.takeChars, Utf8.takeUnits]
  | minus => exact takeChars_cons (by decide) (by decide) _
  | parens => exact takeChars_cons (by decide) (by decide) _

theorem trimEnd_eq : Utf8.trimEnd isHaskellSpace s = s := by
  cases h with
  | unsigned h =>
    have htrim := h.solid.trimEnd_append [] []
    rwa [List.nil_append, List.nil_append, trimEnd_nil, List.append_nil] at htrim
  | @minus w body n _ h =>
    have htrim := h.solid.trimEnd_append (Ascii.minus :: w) []
    rwa [trimEnd_nil, List.append_nil] at htrim
  | @parens l body r =>
    rw [← List.cons_append, Utf8.trimEnd_append_cons (by decide) (by decide), trimEnd_nil]

theorem body_trim {f : Framing} {l r : Bytes} (hl : Blank l) (hr : Blank r)
    (hf : f.body = l ++ (s ++ r)) : f.trimStart.trimEnd.body = s := by
  have hstart := body_trimStart_of_blank hl (h.takeChars_append r) hf
  rw [Framing.trimEnd, hstart, (blank_iff_run.1 hr).trimEnd_append]
  exact h.trimEnd_eq

end Enclosed

/-! ## All layers -/

/-- **Layers that are removed without errors**, around an unsigned numeral. -/
theorem enclosed_of_peel {f : Framing} {n : Nat} (hsign : f.sign = .none)
    (herrors : f.peel.errors = ∅) (h : Unsigned f.peel.body n) :
    Enclosed f.body (f.peel.sign.apply n) := by
  induction f using Framing.peel.induct with
  | case1 f hnone =>
    rw [Framing.peel_of_none hnone] at h ⊢
    rw [hsign]
    exact .unsigned h
  | case2 f g hsome ih =>
    rw [Framing.peel_of_some hsome] at herrors h ⊢
    obtain ⟨-, -, ⟨rest, hbody, rfl⟩ | ⟨rest, hbody, rfl⟩⟩ :=
      Framing.peelOne?_without_errors hsome (Framing.errors_eq_empty_of_peel herrors)
    · -- the minus is the last layer
      have hminus := Framing.sign_peelMinus hsign rest
      rw [Framing.peel_of_sign (by rw [hminus]; decide) herrors] at h ⊢
      obtain ⟨w, hw, hrest⟩ : ∃ w, Blank w ∧ rest = w ++ (f.peelMinus rest).body :=
        exists_blank_trimStart rfl
      rw [hminus, hbody, hrest]
      exact .minus hw h
    · obtain ⟨l, r, hl, hr, hrest⟩ : ∃ l r, Blank l ∧ Blank r ∧
          rest = l ++ ((f.peelPair (rest ++ [Ascii.rightParen])).body ++ r) :=
        exists_blank_trim List.dropLast_concat
      have hinner := ih hsign herrors h
      generalize (f.peelPair (rest ++ [Ascii.rightParen])).peel.sign.apply n = value at hinner ⊢
      rw [hbody, hrest]
      exact .parens hl hinner hr

/-- **The layers around an unsigned numeral** are removed without errors. -/
theorem Enclosed.peel {s : Bytes} {value : Int} (h : Enclosed s value) {f : Framing}
    (hbody : f.body = s) (hsign : f.sign = .none) (herrors : f.errors = ∅) :
    f.peel.errors = ∅ ∧ ∃ n, Unsigned f.peel.body n ∧ f.peel.sign.apply n = value := by
  induction h generalizing f with
  | @unsigned body n h =>
    rw [Framing.peel_of_solid (hbody ▸ h.solid), hbody, hsign]
    exact ⟨herrors, n, h, rfl⟩
  | @minus w body n hw h =>
    have hrest : (f.peelMinus (w ++ body)).body = body := by
      have hstart := (Enclosed.unsigned h).takeChars_append []
      rw [List.append_nil] at hstart
      exact body_trimStart_of_blank hw hstart rfl
    have hnone : (f.peelMinus (w ++ body)).errors = ∅ :=
      FlagSet.union_eq_empty_iff.2 ⟨herrors, Framing.flagIf_signed_eq_empty_iff.2 hsign⟩
    rw [Framing.peel_of_some (Framing.peelOne?_minus hbody),
      Framing.peel_of_solid (hrest.symm ▸ h.solid), hrest, Framing.sign_peelMinus hsign]
    exact ⟨hnone, n, h, rfl⟩
  | @parens l body r value hl h hr ih =>
    rw [Framing.peel_of_some (Framing.peelOne?_pair hbody)]
    exact ih (h.body_trim hl hr List.dropLast_concat) hsign
      (FlagSet.union_eq_empty_iff.2 ⟨herrors, Framing.flagIf_signed_eq_empty_iff.2 hsign⟩)

/-- **A numeral** is one whose framing has no errors, around an unsigned numeral. -/
theorem literal_iff {literal : Bytes} {value : Int} :
    Literal literal value ↔ (Framing.ofHaskell literal).errors = ∅ ∧
      ∃ n, Unsigned (Framing.ofHaskell literal).body n ∧
        (Framing.ofHaskell literal).sign.apply n = value := by
  constructor
  · rintro ⟨l, body, r, hl, h, hr, rfl⟩
    exact h.peel (h.body_trim hl hr rfl) rfl rfl
  · rintro ⟨herrors, n, h, rfl⟩
    obtain ⟨l, r, hl, hr, hliteral⟩ := exists_blank_trim (f := { body := literal }) rfl
    exact ⟨l, _, r, hl, enclosed_of_peel rfl herrors h, hr, hliteral⟩

end Haskell

/-- **A literal is read without errors** under the grammar of Haskell when it is one of its
numerals. It is then read as the value of that numeral. -/
theorem parse?_haskell (literal : Bytes) :
    ∃ n, parse? .haskell literal = .ok n ∧ ∀ value,
      n.errors = ∅ ∧ n.value = value ↔ Haskell.Literal literal value := by
  obtain ⟨n, hparse, hn⟩ := exists_parse?_eq_of_body (g := .haskell) rfl literal
  refine ⟨n, hparse, fun value => (hn value).trans ?_⟩
  rw [Haskell.literal_iff]
  refine and_congr_right fun _ => exists_congr fun magnitude => ?_
  exact and_congr Haskell.body_haskell_iff (and_iff_left rfl)

/-- A sign in front of parentheses is an error, although the value is read. -/
example : (parse .haskell (ascii "-(1)")).errors = {.invalidSign} ∧
    (parse .haskell (ascii "-(1)")).value = -1 := by
  decide +kernel

end WhitespaceAsm.Numeral

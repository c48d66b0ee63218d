import Mathlib.Data.List.Infix
import WhitespaceAsm.Numeral.Layout
import WhitespaceAsm.Proofs.FlagSet
import WhitespaceAsm.Proofs.Utf8

/-!
# The framing of a numeral

Layers are removed from around a body without looking at it, as long as it is solid: what is removed
from a Haskell numeral stays the same when another solid body is put in the place of its own.

* `Framing.peelOne?_without_errors`, **`Framing.peel_of_sign`**: layers that leave no errors;
* `Framing.Replaced`: two framings that differ in a solid part of their bodies;
  **`Framing.ofHaskell_replace`**: the framing of a Haskell numeral with another body.
-/

namespace WhitespaceAsm.Numeral

theorem Error.bit_inj {e f : Error} : Flag.bit e = Flag.bit f ↔ e = f := by
  refine ⟨fun h => ?_, congrArg Flag.bit⟩
  revert h
  cases e <;> cases f <;> decide

theorem mem_flagIf_error {c : Prop} [Decidable c] {e f : Error} :
    e ∈ flagIf c f ↔ c ∧ f = e := by
  rw [mem_flagIf_iff, Error.bit_inj]

namespace Framing

/-! ## Solid bodies -/

/-- The body has something that no framing is made of at both ends. -/
def Solid (body : Bytes) : Prop := body ≠ [] ∧ ∀ b ∈ body, Ascii.isIdentifier b

theorem isHaskellSpace_of_isIdentifier {b : UInt8} (h : Ascii.isIdentifier b) :
    isHaskellSpace b.toNat = false := by
  simp only [Ascii.isIdentifier, Ascii.isLetter, Ascii.isUpper, Ascii.isLower, Ascii.isDigit,
    Ascii.underscore, Bool.or_eq_true, Bool.and_eq_true, decide_eq_true_eq, beq_iff_eq,
    UInt8.le_iff_toNat_le, ← UInt8.toNat_inj, UInt8.reduceToNat] at h
  simp only [isHaskellSpace, Bool.or_eq_false_iff, Bool.and_eq_false_iff, decide_eq_false_iff_not,
    beq_eq_false_iff_ne]
  omega

theorem ne_of_isIdentifier {b c : UInt8} (hb : Ascii.isIdentifier b)
    (hc : Ascii.isIdentifier c = false) : b ≠ c := by
  rintro rfl
  rw [hc] at hb
  cases hb

namespace Solid

variable {body : Bytes} (hbody : Solid body)

include hbody

theorem exists_cons : ∃ b rest, body = b :: rest ∧ Ascii.isIdentifier b := by
  obtain ⟨b, rest, rfl⟩ := List.exists_cons_of_ne_nil hbody.1
  exact ⟨b, rest, rfl, hbody.2 b List.mem_cons_self⟩

theorem exists_concat : ∃ rest b, body = rest ++ [b] ∧ Ascii.isIdentifier b := by
  have hsplit := List.dropLast_concat_getLast hbody.1
  exact ⟨_, _, hsplit.symm, hbody.2 _ (List.getLast_mem hbody.1)⟩

theorem takeChars_append (x y : Bytes) :
    Utf8.takeChars isHaskellSpace (x ++ (body ++ y)) = Utf8.takeChars isHaskellSpace x := by
  obtain ⟨b, rest, rfl, hb⟩ := hbody.exists_cons
  exact Utf8.takeChars_append_cons (Ascii.lt_of_isIdentifier hb)
    (isHaskellSpace_of_isIdentifier hb) x _

theorem trimEnd_append (x y : Bytes) :
    Utf8.trimEnd isHaskellSpace (x ++ (body ++ y))
      = x ++ (body ++ Utf8.trimEnd isHaskellSpace y) := by
  obtain ⟨rest, b, rfl, hb⟩ := hbody.exists_concat
  have htrim := Utf8.trimEnd_append_cons (Ascii.lt_of_isIdentifier hb)
    (isHaskellSpace_of_isIdentifier hb) (x ++ rest) y
  simpa using htrim

theorem getLast?_append (x y : Bytes) :
    (x ++ (body ++ y)).getLast? = some Ascii.rightParen ↔
      y.getLast? = some Ascii.rightParen := by
  obtain ⟨rest, b, rfl, hb⟩ := hbody.exists_concat
  have hne : b ≠ Ascii.rightParen := ne_of_isIdentifier hb rfl
  cases y with
  | nil => simpa using hne
  | cons c y => simp [List.getLast?_append, List.getLast?_cons]

end Solid

theorem dropLast_append_append (x body : Bytes) {y : Bytes} (hy : y ≠ []) :
    (x ++ (body ++ y)).dropLast = x ++ (body ++ y.dropLast) := by
  rw [List.dropLast_append_of_ne_nil (by simp [hy]), List.dropLast_append_of_ne_nil hy]

/-! ## Removing a layer -/

theorem peel_of_none {f : Framing} (h : f.peelOne? = none) : f.peel = f := by
  rw [peel]
  split
  · rfl
  · next heq => rw [h] at heq; cases heq

theorem peel_of_some {f g : Framing} (h : f.peelOne? = some g) : f.peel = g.peel := by
  rw [peel]
  split
  · next heq => rw [h] at heq; cases heq
  · next heq => rw [h] at heq; rw [Option.some.inj heq]

/-- The bytes that are removed at the start of a body, apart from spaces. -/
def openingMarks : Bytes := [Ascii.minus, Ascii.plus, Ascii.leftParen]

/-- **A layer and what is left without it**: an opening parenthesis goes alone when the body does
not end with a closing one, and a closing one when the body does not begin with another layer. -/
inductive Layer (f : Framing) : Framing → Prop
  | minus {rest : Bytes} (hbody : f.body = Ascii.minus :: rest) : Layer f (f.peelMinus rest)
  | plus {rest : Bytes} (hbody : f.body = Ascii.plus :: rest) : Layer f (f.peelPlus rest)
  | pair {rest : Bytes} (hbody : f.body = Ascii.leftParen :: (rest ++ [Ascii.rightParen])) :
    Layer f (f.peelPair (rest ++ [Ascii.rightParen]))
  | left {rest : Bytes} (hbody : f.body = Ascii.leftParen :: rest)
      (hlast : f.body.getLast? ≠ some Ascii.rightParen) : Layer f (f.peelLeft rest)
  | right {rest : Bytes} (hbody : f.body = rest ++ [Ascii.rightParen])
      (hhead : ∀ b ∈ openingMarks, f.body.head? ≠ some b) : Layer f f.peelRight

theorem notMem_openingMarks {b : UInt8} (hminus : b ≠ Ascii.minus) (hplus : b ≠ Ascii.plus)
    (hparen : b ≠ Ascii.leftParen) : b ∉ openingMarks := by
  simp [openingMarks, hminus, hplus, hparen]

/-- **What removing a layer does**, and when. -/
theorem layer_of_peelOne? {f g : Framing} (h : f.peelOne? = some g) : Layer f g := by
  unfold peelOne? at h
  split at h
  · cases h
  · next first rest hbody =>
    dsimp only at h
    split at h
    · next hminus => exact Option.some.inj h ▸ .minus (hminus ▸ hbody)
    · next hminus =>
      split at h
      · next hplus => exact Option.some.inj h ▸ .plus (hplus ▸ hbody)
      · next hplus =>
        split at h
        · next hpair =>
          obtain ⟨rfl, hlast⟩ := hpair
          obtain ⟨inner, hinner⟩ := List.getLast?_eq_some_iff.1 hlast
          obtain ⟨inner, rfl⟩ : ∃ s, rest = s ++ [Ascii.rightParen] := by
            rw [hbody] at hinner
            cases inner with
            | nil => cases hinner
            | cons c s => exact ⟨s, (List.cons.inj hinner).2⟩
          exact Option.some.inj h ▸ .pair hbody
        · next hpair =>
          split at h
          · next hparen =>
            exact Option.some.inj h ▸ .left (hparen ▸ hbody) fun hlast => hpair ⟨hparen, hlast⟩
          · next hparen =>
            split at h
            · next hlast =>
              obtain ⟨inner, hinner⟩ := List.getLast?_eq_some_iff.1 hlast
              refine Option.some.inj h ▸ .right hinner fun b hb hfirst => ?_
              rw [hbody, List.head?_cons, Option.some.injEq] at hfirst
              exact notMem_openingMarks hminus hplus hparen (hfirst ▸ hb)
            · cases h

/-- **What is left when no layer can be removed.** -/
theorem ends_of_peelOne? {f : Framing} (h : f.peelOne? = none) :
    (∀ b ∈ openingMarks, f.body.head? ≠ some b) ∧ f.body.getLast? ≠ some Ascii.rightParen := by
  unfold peelOne? at h
  split at h
  · next hnil =>
    rw [hnil]
    simp
  · next first rest hbody =>
    dsimp only at h
    split_ifs at h with hminus hplus hpair hparen hlast
    refine ⟨fun b hb hfirst => ?_, hlast⟩
    rw [hbody, List.head?_cons, Option.some.injEq] at hfirst
    exact notMem_openingMarks hminus hplus hparen (hfirst ▸ hb)

theorem peelOne?_cases {f g : Framing} (h : f.peelOne? = some g) :
    (∃ rest, f.body = Ascii.minus :: rest ∧ g = f.peelMinus rest) ∨
    (∃ rest, f.body = Ascii.plus :: rest ∧ g = f.peelPlus rest) ∨
    (∃ rest, f.body = Ascii.leftParen :: (rest ++ [Ascii.rightParen]) ∧
      g = f.peelPair (rest ++ [Ascii.rightParen])) ∨
    (∃ rest, f.body = Ascii.leftParen :: rest ∧ g = f.peelLeft rest) ∨
    (∃ rest, f.body = rest ++ [Ascii.rightParen] ∧ g = f.peelRight) := by
  cases layer_of_peelOne? h with
  | minus hbody => exact .inl ⟨_, hbody, rfl⟩
  | plus hbody => exact .inr (.inl ⟨_, hbody, rfl⟩)
  | pair hbody => exact .inr (.inr (.inl ⟨_, hbody, rfl⟩))
  | left hbody => exact .inr (.inr (.inr (.inl ⟨_, hbody, rfl⟩)))
  | right hbody => exact .inr (.inr (.inr (.inr ⟨_, hbody, rfl⟩)))

/-! ## The parts are the literal -/

/-- The literal that a framing has been read from. -/
def whole (f : Framing) : Bytes := f.opening ++ (f.body ++ f.closing)

theorem whole_trimStart (f : Framing) : f.trimStart.whole = f.whole := by
  have hsplit := List.prefix_append_drop (Utf8.takeChars_isPrefix isHaskellSpace f.body)
  rw [whole, whole, trimStart]
  dsimp only
  rw [List.append_assoc, ← List.append_assoc (Utf8.takeChars isHaskellSpace f.body), ← hsplit]

theorem whole_trimEnd (f : Framing) : f.trimEnd.whole = f.whole := by
  have hsplit := List.prefix_append_drop (Utf8.trimEnd_isPrefix isHaskellSpace f.body)
  rw [whole, whole, trimEnd]
  dsimp only
  rw [← List.append_assoc (Utf8.trimEnd isHaskellSpace f.body), ← hsplit]

theorem whole_of_peelOne? {f g : Framing} (h : f.peelOne? = some g) : g.whole = f.whole := by
  obtain ⟨rest, hbody, rfl⟩ | ⟨rest, hbody, rfl⟩ | ⟨rest, hbody, rfl⟩ | ⟨rest, hbody, rfl⟩ |
    ⟨rest, hbody, rfl⟩ := peelOne?_cases h
  · rw [peelMinus, whole_trimStart]
    simp [whole, hbody]
  · rw [peelPlus, whole_trimStart]
    simp [whole, hbody]
  · rw [peelPair, whole_trimEnd, whole_trimStart]
    simp [whole, hbody]
  · rw [peelLeft, whole_trimStart]
    simp [whole, hbody]
  · rw [peelRight, whole_trimEnd]
    simp [whole, hbody]

theorem whole_peel (f : Framing) : f.peel.whole = f.whole := by
  induction f using peel.induct with
  | case1 f hnone => rw [peel_of_none hnone]
  | case2 f g hsome ih => rw [peel_of_some hsome, ih, whole_of_peelOne? hsome]

theorem opening_append_ofHaskell (literal : Bytes) :
    (ofHaskell literal).opening ++ ((ofHaskell literal).body ++ (ofHaskell literal).closing)
      = literal := by
  change (ofHaskell literal).whole = literal
  rw [ofHaskell, whole_peel, whole_trimEnd, whole_trimStart]
  simp [whole]

/-! ## Errors -/

section Errors

variable {p : Error → Prop} (hsign : p .invalidSign) (hparen : p .unpairedParen)

include hsign hparen

theorem errors_of_peelOne? {f g : Framing} (h : f.peelOne? = some g) (hf : f.errors.EmptyOr p) :
    g.errors.EmptyOr p := by
  obtain ⟨rest, -, rfl⟩ | ⟨rest, -, rfl⟩ | ⟨rest, -, rfl⟩ | ⟨rest, -, rfl⟩ | ⟨rest, -, rfl⟩ :=
    peelOne?_cases h
  · exact hf.union (.flagIf hsign)
  · exact hf.union (.singleton hsign)
  · exact hf.union (.flagIf hsign)
  · exact (hf.union (.flagIf hsign)).union (.singleton hparen)
  · exact hf.union (.singleton hparen)

theorem errors_peel {f : Framing} (hf : f.errors.EmptyOr p) : f.peel.errors.EmptyOr p := by
  induction f using peel.induct with
  | case1 f hnone => rwa [peel_of_none hnone]
  | case2 f g hsome ih =>
    rw [peel_of_some hsome]
    exact ih (errors_of_peelOne? hsign hparen hsome hf)

/-- **The errors of a framing** are about signs and parentheses. -/
theorem errors_ofLiteral (signs : SignStyle) (literal : Bytes) :
    (ofLiteral signs literal).errors.EmptyOr p := by
  have hofSign : (ofSign signs literal).errors.EmptyOr p := by
    unfold ofSign
    split
    · exact .empty
    · split
      · exact .empty
      · split
        · exact .flagIf hsign
        · exact .empty
  cases signs with
  | haskell => exact errors_peel hsign hparen .empty
  | minus => exact hofSign
  | plusMinus => exact hofSign

end Errors

/-! ## Layers without errors -/

theorem flagIf_signed_eq_empty_iff {f : Framing} {e : Error} :
    flagIf f.signed e = ∅ ↔ f.sign = .none := by
  rw [flagIf_eq_empty_iff, signed, bne_iff_ne, not_not]

theorem sign_peelMinus {f : Framing} (hsign : f.sign = .none) (rest : Bytes) :
    (f.peelMinus rest).sign = .minus := by
  rw [peelMinus, hsign]
  rfl

theorem peelOne?_minus {f : Framing} {rest : Bytes} (hbody : f.body = Ascii.minus :: rest) :
    f.peelOne? = some (f.peelMinus rest) := by
  simp [peelOne?, hbody]

theorem peelOne?_pair {f : Framing} {rest : Bytes}
    (hbody : f.body = Ascii.leftParen :: (rest ++ [Ascii.rightParen])) :
    f.peelOne? = some (f.peelPair (rest ++ [Ascii.rightParen])) := by
  have hlast : f.body.getLast? = some Ascii.rightParen := by
    rw [hbody, ← List.cons_append]
    exact List.getLast?_concat
  rw [peelOne?]
  split
  · next hnil =>
    rw [hnil] at hbody
    cases hbody
  · next hcons =>
    rw [hcons] at hbody
    obtain ⟨rfl, rfl⟩ := List.cons.inj hbody
    rw [if_neg (by decide), if_neg (by decide), if_pos ⟨rfl, hlast⟩]

/-- **A layer is removed without errors** when it is a minus or a pair of parentheses, without a
sign in front and errors before. -/
theorem peelOne?_without_errors {f g : Framing} (h : f.peelOne? = some g) (hg : g.errors = ∅) :
    f.sign = .none ∧ f.errors = ∅ ∧
      ((∃ rest, f.body = Ascii.minus :: rest ∧ g = f.peelMinus rest) ∨
        ∃ rest, f.body = Ascii.leftParen :: (rest ++ [Ascii.rightParen]) ∧
          g = f.peelPair (rest ++ [Ascii.rightParen])) := by
  obtain ⟨rest, hbody, rfl⟩ | ⟨rest, -, rfl⟩ | ⟨rest, hbody, rfl⟩ | ⟨rest, -, rfl⟩ |
    ⟨rest, -, rfl⟩ := peelOne?_cases h
  · obtain ⟨herrors, hsigned⟩ := FlagSet.union_eq_empty hg
    exact ⟨flagIf_signed_eq_empty_iff.1 hsigned, herrors, .inl ⟨rest, hbody, rfl⟩⟩
  · exact absurd (FlagSet.union_eq_empty hg).2 (FlagSet.singleton_ne_empty _)
  · obtain ⟨herrors, hsigned⟩ := FlagSet.union_eq_empty hg
    exact ⟨flagIf_signed_eq_empty_iff.1 hsigned, herrors, .inr ⟨rest, hbody, rfl⟩⟩
  · exact absurd (FlagSet.union_eq_empty hg).2 (FlagSet.singleton_ne_empty _)
  · exact absurd (FlagSet.union_eq_empty hg).2 (FlagSet.singleton_ne_empty _)

theorem errors_eq_empty_of_peel {f : Framing} (h : f.peel.errors = ∅) : f.errors = ∅ := by
  induction f using peel.induct with
  | case1 f hnone => rwa [peel_of_none hnone] at h
  | case2 f g hsome ih =>
    rw [peel_of_some hsome] at h
    exact (peelOne?_without_errors hsome (ih h)).2.1

theorem peel_of_sign {f : Framing} (hsign : f.sign ≠ .none) (h : f.peel.errors = ∅) :
    f.peel = f := by
  cases hpeel : f.peelOne? with
  | none => exact peel_of_none hpeel
  | some g =>
    rw [peel_of_some hpeel] at h
    exact absurd (peelOne?_without_errors hpeel (errors_eq_empty_of_peel h)).1 hsign

/-! ## Another body in the same framing -/

/-- `g` is `f` with a part `b` of its body replaced by `b'`. -/
def Replaced (b b' : Bytes) (f g : Framing) : Prop :=
  ∃ x y, f.body = x ++ (b ++ y) ∧ g = { f with body := x ++ (b' ++ y) }

section Replaced

variable {b b' : Bytes} {f g : Framing} (hb : Solid b) (hb' : Solid b')

include hb

theorem body_trimStart {x y : Bytes} (hf : f.body = x ++ (b ++ y)) :
    f.trimStart = { f with
      opening := f.opening ++ Utf8.takeChars isHaskellSpace x
      body := x.drop (Utf8.takeChars isHaskellSpace x).length ++ (b ++ y) } := by
  have hle := (Utf8.takeChars_isPrefix isHaskellSpace x).length_le
  rw [trimStart, hf, hb.takeChars_append, List.drop_append_of_le_length hle]

theorem body_trimEnd {x y : Bytes} (hf : f.body = x ++ (b ++ y)) :
    f.trimEnd = { f with
      body := x ++ (b ++ Utf8.trimEnd isHaskellSpace y)
      closing := y.drop (Utf8.trimEnd isHaskellSpace y).length ++ f.closing } := by
  have hdrop : (x ++ (b ++ y)).drop (x ++ (b ++ Utf8.trimEnd isHaskellSpace y)).length
      = y.drop (Utf8.trimEnd isHaskellSpace y).length := by
    simp only [List.length_append, List.drop_length_add_append]
  rw [trimEnd, hf, hb.trimEnd_append, hdrop]

/-- **The layer around a solid part** of a body is told from what stands before and after it. -/
theorem peelOne?_of_body {x y : Bytes} (hf : f.body = x ++ (b ++ y)) :
    f.peelOne? =
      match x with
      | [] => if y.getLast? = some Ascii.rightParen then some f.peelRight else none
      | first :: x =>
        if first = Ascii.minus then some (f.peelMinus (x ++ (b ++ y)))
        else if first = Ascii.plus then some (f.peelPlus (x ++ (b ++ y)))
        else if first = Ascii.leftParen ∧ y.getLast? = some Ascii.rightParen then
          some (f.peelPair (x ++ (b ++ y)))
        else if first = Ascii.leftParen then some (f.peelLeft (x ++ (b ++ y)))
        else if y.getLast? = some Ascii.rightParen then some f.peelRight
        else none := by
  have hlast := hb.getLast?_append x y
  rw [← hf] at hlast
  cases x with
  | nil =>
    obtain ⟨c, rest, rfl, hc⟩ := hb.exists_cons
    simp only [peelOne?, hlast]
    simp only [hf, List.nil_append, List.cons_append, ne_of_isIdentifier hc (c := Ascii.minus) rfl,
      ne_of_isIdentifier hc (c := Ascii.plus) rfl, ne_of_isIdentifier hc (c := Ascii.leftParen) rfl,
      false_and, if_false]
  | cons first x =>
    simp only [peelOne?, hlast]
    simp only [hf, List.cons_append]

include hb'

theorem Replaced.trimStart (h : Replaced b b' f g) : Replaced b b' f.trimStart g.trimStart := by
  obtain ⟨x, y, hf, rfl⟩ := h
  rw [body_trimStart hb hf, body_trimStart hb' rfl]
  exact ⟨_, y, rfl, rfl⟩

theorem Replaced.trimEnd (h : Replaced b b' f g) : Replaced b b' f.trimEnd g.trimEnd := by
  obtain ⟨x, y, hf, rfl⟩ := h
  rw [body_trimEnd hb hf, body_trimEnd hb' rfl]
  exact ⟨x, _, rfl, rfl⟩

theorem Replaced.peelRight {x y : Bytes} (hy : y ≠ []) (hf : f.body = x ++ (b ++ y)) :
    Replaced b b' f.peelRight (Framing.peelRight { f with body := x ++ (b' ++ y) }) := by
  refine Replaced.trimEnd hb hb' ⟨x, y.dropLast, ?_, ?_⟩
  · exact (congrArg List.dropLast hf).trans (dropLast_append_append x b hy)
  · rw [← dropLast_append_append x b' hy]

/-- **The same layer is removed**, or none. -/
theorem Replaced.peelOne? (h : Replaced b b' f g) :
    (f.peelOne? = none ∧ g.peelOne? = none) ∨
      ∃ f' g', f.peelOne? = some f' ∧ g.peelOne? = some g' ∧ Replaced b b' f' g' := by
  obtain ⟨x, y, hf, rfl⟩ := h
  have hy : y.getLast? = some Ascii.rightParen → y ≠ [] := by
    rintro h rfl
    cases h
  rw [peelOne?_of_body hb hf, peelOne?_of_body hb' rfl]
  cases x with
  | nil =>
    dsimp only
    split
    · next hlast => exact .inr ⟨_, _, rfl, rfl, .peelRight hb hb' (hy hlast) hf⟩
    · exact .inl ⟨rfl, rfl⟩
  | cons first x =>
    dsimp only
    split
    · exact .inr ⟨_, _, rfl, rfl, .trimStart hb hb' ⟨x, y, rfl, rfl⟩⟩
    · split
      · exact .inr ⟨_, _, rfl, rfl, .trimStart hb hb' ⟨x, y, rfl, rfl⟩⟩
      · split
        · next hpair =>
          refine .inr ⟨_, _, rfl, rfl, .trimEnd hb hb' (.trimStart hb hb' ?_)⟩
          rw [dropLast_append_append x b (hy hpair.2), dropLast_append_append x b' (hy hpair.2)]
          exact ⟨x, _, rfl, rfl⟩
        · split
          · exact .inr ⟨_, _, rfl, rfl, .trimStart hb hb' ⟨x, y, rfl, rfl⟩⟩
          · split
            · next hlast => exact .inr ⟨_, _, rfl, rfl, .peelRight hb hb' (hy hlast) hf⟩
            · exact .inl ⟨rfl, rfl⟩

theorem Replaced.peel (h : Replaced b b' f g) : Replaced b b' f.peel g.peel := by
  induction f using peel.induct generalizing g with
  | case1 f hnone =>
    obtain ⟨-, hg⟩ | ⟨f', g', hf, -⟩ := h.peelOne? hb hb'
    · rwa [peel_of_none hnone, peel_of_none hg]
    · rw [hnone] at hf
      cases hf
  | case2 f f' hsome ih =>
    obtain ⟨hf, -⟩ | ⟨f'', g', hf, hg, h'⟩ := h.peelOne? hb hb'
    · rw [hsome] at hf
      cases hf
    · rw [hsome] at hf
      obtain rfl := Option.some.inj hf
      rw [peel_of_some hsome, peel_of_some hg]
      exact ih h'

end Replaced

/-- **The framing of a Haskell numeral with another body** is the same. -/
theorem ofHaskell_replace {literal body : Bytes} (hf : Solid (ofHaskell literal).body)
    (hbody : Solid body) :
    ofHaskell ((ofHaskell literal).opening ++ (body ++ (ofHaskell literal).closing))
      = { ofHaskell literal with body } := by
  have hreplaced : Replaced (ofHaskell literal).body body (ofHaskell literal)
      (ofHaskell ((ofHaskell literal).opening ++ (body ++ (ofHaskell literal).closing))) := by
    have h : Replaced (ofHaskell literal).body body { body := literal } { body := _ } :=
      ⟨_, _, (opening_append_ofHaskell literal).symm, rfl⟩
    exact ((h.trimStart hf hbody).trimEnd hf hbody).peel hf hbody
  obtain ⟨x, y, hxy, hresult⟩ := hreplaced
  -- the body is the part that has been replaced, so that nothing stands around it
  have hlength := congrArg List.length hxy
  rw [List.length_append, List.length_append] at hlength
  obtain rfl : x = [] := List.eq_nil_of_length_eq_zero (by omega)
  obtain rfl : y = [] := List.eq_nil_of_length_eq_zero (by omega)
  rw [hresult, List.nil_append, List.append_nil]

/-! ## A sign alone -/

section Sign

variable {f : Framing}

theorem trimStart_of_solid (hf : Solid f.body) : f.trimStart = f := by
  rw [body_trimStart (x := []) (y := []) hf (by simp)]
  simp [Utf8.takeChars, Utf8.takeUnits]

theorem peel_of_solid (hf : Solid f.body) : f.peel = f := by
  refine peel_of_none ?_
  rw [peelOne?_of_body (x := []) (y := []) hf (by simp)]
  rfl

/-- **A sign is the whole framing** of a solid body. -/
theorem ofLiteral_sign {signs : SignStyle} {sign : Sign} {body : Bytes} (hbody : Solid body)
    (hsign : sign = .plus → signs = .plusMinus) :
    ofLiteral signs (sign.text ++ body) = { sign, opening := sign.text, body } := by
  obtain ⟨b, rest, rfl, hb⟩ := hbody.exists_cons
  have hminus : b ≠ Ascii.minus := ne_of_isIdentifier hb rfl
  have hplus : b ≠ Ascii.plus := ne_of_isIdentifier hb rfl
  have hofSign : ofSign signs (sign.text ++ b :: rest)
      = { sign, opening := sign.text, body := b :: rest } := by
    cases sign with
    | none => simp [ofSign, Sign.text, hminus, hplus]
    | plus =>
      have hsigns : Ascii.plus ≠ Ascii.minus := by decide
      simp [ofSign, Sign.text, hsigns, hsign rfl, flagIf_eq_empty]
    | minus => simp [ofSign, Sign.text]
  cases signs with
  | minus => exact hofSign
  | plusMinus => exact hofSign
  | haskell =>
    have htrim : ∀ s : Bytes, trimEnd { body := s ++ b :: rest } = { body := s ++ b :: rest } := by
      intro s
      rw [body_trimEnd (x := s) (y := []) hbody (by simp)]
      simp [Utf8.trimEnd]
    rw [ofLiteral, ofHaskell]
    cases sign with
    | plus => cases hsign rfl
    | none =>
      rw [trimStart_of_solid hbody, Sign.text, htrim, peel_of_solid hbody]
      rfl
    | minus =>
      have hstart : trimStart { body := [Ascii.minus] ++ b :: rest }
          = { body := [Ascii.minus] ++ b :: rest } := by
        have hblank : Utf8.takeChars isHaskellSpace [Ascii.minus] = [] :=
          (Utf8.takeChars_append_cons (by decide) (by decide) [] []).trans
            (by simp [Utf8.takeChars, Utf8.takeUnits])
        rw [body_trimStart (x := [Ascii.minus]) (y := []) hbody (by simp), hblank]
        simp
      rw [Sign.text, hstart, htrim, peel_of_some (g := peelMinus _ (b :: rest)) rfl, peelMinus,
        trimStart_of_solid hbody, peel_of_solid hbody]
      simp [signed, flagIf_eq_empty]

end Sign

end Framing

end WhitespaceAsm.Numeral
